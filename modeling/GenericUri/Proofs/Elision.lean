import GenericUri.IpAddress
import Mathlib.Data.List.Basic

/-!
# Elision — the run of zeros that is left out

Of eight or six groups the first among the longest runs of zeros is left out, if it is of two groups or more.  The
search goes from the last group to the first: a run that starts at the group in front is taken if no run after it is
longer.  `exists_firstLongestRun` says so of the text that is written.
-/

namespace GenericUri.Groups

variable {gs left right : List Hexadectet} {length : ℕ}

/-- The groups are `left`, zeros, and `right`; no run of zeros is longer, and none as long starts further left. -/
structure FirstLongestRun (gs left : List Hexadectet) (length : ℕ) (right : List Hexadectet) : Prop where
  split : gs = left ++ List.replicate length 0 ++ right
  longest : ∀ l k r, gs = l ++ List.replicate k 0 ++ r → k ≤ length
  first : ∀ l r, gs = l ++ List.replicate length 0 ++ r → left.length ≤ l.length

/-! ### The search -/

theorem takeWhile_zero_eq_replicate (gs : List Hexadectet) :
    gs.takeWhile (· == 0) = List.replicate (gs.takeWhile (· == 0)).length 0 := by
  rw [List.eq_replicate_iff]
  refine ⟨rfl, fun g hg => ?_⟩
  have := List.all_eq_true.1 (List.all_takeWhile (l := gs) (p := (· == 0))) g hg
  simpa using this

theorem drop_length_takeWhile_zero (gs : List Hexadectet) :
    gs.drop (gs.takeWhile (· == 0)).length = gs.dropWhile (· == 0) := by
  calc gs.drop (gs.takeWhile (· == 0)).length
      = (gs.takeWhile (· == 0) ++ gs.dropWhile (· == 0)).drop (gs.takeWhile (· == 0)).length := by
        rw [List.takeWhile_append_dropWhile]
    _ = gs.dropWhile (· == 0) := List.drop_left

/-- A run of zeros starts in front, or is one of the groups after the first. -/
theorem run_cons {g : Hexadectet} {l r : List Hexadectet} {k : ℕ} (h : g :: gs = l ++ List.replicate k 0 ++ r) :
    k ≤ ((g :: gs).takeWhile (· == 0)).length ∨ ∃ l', l = g :: l' ∧ gs = l' ++ List.replicate k 0 ++ r := by
  cases l with
  | nil =>
    have hzeros : ∀ g ∈ List.replicate k (0 : Hexadectet), (g == 0) = true := by
      intro g hg
      rw [List.eq_of_mem_replicate hg]
      rfl
    rw [h, List.nil_append, List.takeWhile_append_of_pos hzeros, List.length_append, List.length_replicate]
    exact .inl (Nat.le_add_right k _)
  | cons a l =>
    obtain ⟨rfl, hgs⟩ := List.cons.inj h
    exact .inr ⟨l, rfl, hgs⟩

/-- The zeros in front are taken if no run after them is longer. -/
theorem FirstLongestRun.front {g : Hexadectet} (h : FirstLongestRun gs left length right)
    (hle : length ≤ ((g :: gs).takeWhile (· == 0)).length) :
    FirstLongestRun (g :: gs) [] ((g :: gs).takeWhile (· == 0)).length ((g :: gs).dropWhile (· == 0)) where
  split := by
    rw [List.nil_append, ← takeWhile_zero_eq_replicate, List.takeWhile_append_dropWhile]
  longest l k r hk := by
    rcases run_cons hk with hk | ⟨l', -, hk⟩
    · exact hk
    · exact Nat.le_trans (h.longest l' k r hk) hle
  first l r _ := Nat.zero_le _

/-- A run that is longer than the zeros in front is still the one to take. -/
theorem FirstLongestRun.cons {g : Hexadectet} (h : FirstLongestRun gs left length right)
    (hlt : ((g :: gs).takeWhile (· == 0)).length < length) : FirstLongestRun (g :: gs) (g :: left) length right where
  split := by
    rw [List.cons_append, List.cons_append, ← h.split]
  longest l k r hk := by
    rcases run_cons hk with hk | ⟨l', -, hk⟩
    · exact Nat.le_of_lt (Nat.lt_of_le_of_lt hk hlt)
    · exact h.longest l' k r hk
  first l r hk := by
    rcases run_cons hk with hk | ⟨l', rfl, hl⟩
    · exact absurd hk (Nat.not_le.2 hlt)
    · exact Nat.succ_le_succ (h.first l' r hl)

theorem firstLongestRun_nil : FirstLongestRun [] [] 0 [] where
  split := rfl
  longest l k r h := by
    have := congrArg List.length h
    simp only [List.length_nil, List.length_append, List.length_replicate] at this
    omega
  first l r _ := Nat.zero_le _

theorem firstLongestRun_longestZeros (gs : List Hexadectet) :
    FirstLongestRun gs (gs.take (longestZeros gs).1) (longestZeros gs).2
      (gs.drop ((longestZeros gs).1 + (longestZeros gs).2)) := by
  induction gs with
  | nil => exact firstLongestRun_nil
  | cons g gs ih =>
    rw [longestZeros]
    split
    next start length hz =>
    rw [hz] at ih
    split
    · next hle =>
      rw [Nat.zero_add, drop_length_takeWhile_zero]
      exact ih.front hle
    · next hlt =>
      have hs : start + 1 + length = (start + length) + 1 := by omega
      rw [hs, List.take_succ_cons, List.drop_succ_cons]
      exact ih.cons (Nat.not_le.1 hlt)

/-! ### What is written -/

/-- The first longest run is left out if it is of two groups or more. -/
theorem exists_firstLongestRun (gs : List Hexadectet) :
    ∃ left length right, FirstLongestRun gs left length right ∧
      elided gs = if length < 2 then (joined gs, false)
        else (joined left ++ ':' :: ':' :: joined right, right.isEmpty) := by
  have hrun := firstLongestRun_longestZeros gs
  rw [elided]
  split
  next start length hz =>
  rw [hz] at hrun
  refine ⟨_, _, _, hrun, ?_⟩
  split
  · rfl
  · simp only [List.append_assoc, List.cons_append, List.nil_append]

/-- A run of two zeros or more is there exactly if two zeros stand side by side. -/
theorem FirstLongestRun.two_le_iff (h : FirstLongestRun gs left length right) :
    2 ≤ length ↔ [0, 0] <:+: gs := by
  constructor
  · intro hle
    obtain ⟨k, rfl⟩ := Nat.exists_eq_add_of_le' hle
    refine ⟨left, List.replicate k 0 ++ right, ?_⟩
    rw [h.split, List.append_assoc, List.append_assoc]
    rfl
  · rintro ⟨l, r, hgs⟩
    exact h.longest l 2 r hgs.symm

theorem FirstLongestRun.getElem?_eq_zero (h : FirstLongestRun gs left length right) {i : ℕ} (hi : left.length ≤ i)
    (hi' : i < left.length + length) : gs[i]? = some 0 := by
  rw [h.split, List.append_assoc, List.getElem?_append_right hi, List.getElem?_append_left (by simp; omega),
    List.getElem?_replicate_of_lt (by omega)]

/-- A single zero between other groups stands on one side of the run together with them. -/
theorem FirstLongestRun.single_zero (h : FirstLongestRun gs left length right) (hle : 2 ≤ length)
    {l r : List Hexadectet} {a b : Hexadectet} (hgs : gs = l ++ a :: 0 :: b :: r) (ha : a ≠ 0) (hb : b ≠ 0) :
    l ++ [a, 0, b] <+: left ∨ a :: 0 :: b :: r <:+ right := by
  have out : ∀ i g, gs[i]? = some g → g ≠ 0 → i < left.length ∨ left.length + length ≤ i := by
    intro i g hi hg
    by_contra hrun
    rw [h.getElem?_eq_zero (by omega) (by omega)] at hi
    exact hg (Option.some.inj hi).symm
  have hl := out l.length a (by simp [hgs]) ha
  have hr := out (l.length + 2) b (by simp [hgs]) hb
  have hlength := congrArg List.length (h.split.symm.trans hgs)
  simp only [List.length_append, List.length_replicate, List.length_cons] at hlength
  rcases hl with hl | hl
  · have hfront : l ++ [a, 0, b] <+: gs := ⟨r, by simp [hgs]⟩
    have hleft : left <+: gs := ⟨List.replicate length 0 ++ right, by rw [h.split, List.append_assoc]⟩
    refine .inl (List.prefix_of_prefix_length_le hfront hleft ?_)
    simp only [List.length_append, List.length_cons, List.length_nil]
    omega
  · have hback : a :: 0 :: b :: r <:+ gs := ⟨l, hgs.symm⟩
    have hright : right <:+ gs := ⟨left ++ List.replicate length 0, h.split.symm⟩
    refine .inr (List.suffix_of_suffix_length_le hback hright ?_)
    simp only [List.length_cons]
    omega

end GenericUri.Groups
