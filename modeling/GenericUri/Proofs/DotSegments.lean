import GenericUri.Path
import Mathlib.Data.List.Induction

/-!
# DotSegments — what taking the steps leaves

The stack of `remove` has one of two shapes.  Where an unmatched `..` is dropped it holds values only (`Values`);
where it is kept, the values stand on a block of `..` (`Leading`, read from the bottom).  Both are what one `push`
preserves, and so what a whole run does.

`removeOnto_remove_kept`: steps taken once with `..` kept and once more with `..` dropped are the steps taken once.
The two stacks are related by `push_split`: on a block of `k` kept `..` stands what stands, in the other stack, on
the stack that was there at the start less its upper `k` segments.
-/

namespace GenericUri

/-- A segment that holds a value, and is no step. -/
def Segment.IsValue (s : Segment) : Prop := ∃ t, s = .value t

@[simp] theorem Segment.isValue_value (t : Text) : (Segment.value t).IsValue := ⟨t, rfl⟩

@[simp] theorem Segment.isValue_empty : Segment.empty.IsValue := ⟨[], rfl⟩

@[simp] theorem Segment.not_isValue_dot : ¬ Segment.dot.IsValue := by
  rintro ⟨t, h⟩
  cases h

@[simp] theorem Segment.not_isValue_dotDot : ¬ Segment.dotDot.IsValue := by
  rintro ⟨t, h⟩
  cases h

namespace DotSegments

variable {u : Unmatched} {stack below segments rest vs : List Segment} {s : Segment} {k : Nat}

/-- No steps at all. -/
def Values (segments : List Segment) : Prop := ∀ s ∈ segments, s.IsValue

@[simp] theorem values_nil : Values [] := by
  intro s hs
  cases hs

@[simp] theorem values_cons : Values (s :: segments) ↔ s.IsValue ∧ Values segments :=
  List.forall_mem_cons

@[simp] theorem values_append : Values (segments ++ rest) ↔ Values segments ∧ Values rest :=
  List.forall_mem_append

@[simp] theorem values_reverse : Values segments.reverse ↔ Values segments := by
  simp [Values]

theorem Values.drop (h : Values segments) (n : Nat) : Values (segments.drop n) :=
  fun s hs => h s (List.mem_of_mem_drop hs)

theorem Values.dropLast (h : Values segments) : Values segments.dropLast :=
  fun s hs => h s (List.dropLast_subset segments hs)

@[simp] theorem values_trailing (isLast : Bool) : Values (trailing isLast) := by
  cases isLast <;> simp [trailing]

/-- The only steps are `..`, and they come first. -/
def Leading (segments : List Segment) : Prop :=
  ∃ k vs, segments = List.replicate k .dotDot ++ vs ∧ Values vs

theorem Values.leading (h : Values segments) : Leading segments := ⟨0, segments, rfl, h⟩

/-! ### A run is its pushes, and the last one -/

/-- The stack after segments of which none is the last of the path. -/
def pushAll (u : Unmatched) (stack segments : List Segment) : List Segment :=
  segments.foldl (push u false) stack

@[simp] theorem pushAll_nil : pushAll u stack [] = stack := rfl

@[simp] theorem pushAll_cons : pushAll u stack (s :: segments) = pushAll u (push u false stack s) segments :=
  rfl

theorem pushAll_append : pushAll u stack (segments ++ rest) = pushAll u (pushAll u stack segments) rest :=
  List.foldl_append

@[simp] theorem pushAll_concat :
    pushAll u stack (segments ++ [s]) = push u false (pushAll u stack segments) s :=
  pushAll_append

theorem removeOnto_append (h : rest ≠ []) :
    removeOnto u stack (segments ++ rest) = removeOnto u (pushAll u stack segments) rest := by
  induction segments generalizing stack with
  | nil => rfl
  | cons s segments ih =>
    have hne : (segments ++ rest).isEmpty = false := by simp [h]
    rw [List.cons_append, removeOnto, hne, ih, pushAll_cons]

theorem removeOnto_concat :
    removeOnto u stack (segments ++ [s]) = (push u true (pushAll u stack segments) s).reverse := by
  rw [removeOnto_append (by simp)]
  rfl

theorem remove_concat : remove u (segments ++ [s]) = (push u true (pushAll u [] segments) s).reverse :=
  removeOnto_concat

/-! ### One push -/

@[simp] theorem push_value (isLast : Bool) (t : Text) : push u isLast stack (.value t) = .value t :: stack := rfl

theorem push_of_isValue (isLast : Bool) (h : s.IsValue) : push u isLast stack s = s :: stack := by
  obtain ⟨t, rfl⟩ := h
  rfl

@[simp] theorem push_dot (isLast : Bool) : push u isLast stack .dot = trailing isLast ++ stack := rfl

theorem push_dotDot_cons (isLast : Bool) (h : s.IsValue) :
    push u isLast (s :: stack) .dotDot = trailing isLast ++ stack := by
  obtain ⟨t, rfl⟩ := h
  cases u <;> rfl

theorem push_kept_dotDot (isLast : Bool) (k : Nat) :
    push .kept isLast (List.replicate k .dotDot) .dotDot = List.replicate (k + 1) .dotDot := by
  cases k <;> rfl

theorem push_dropped_dotDot (isLast : Bool) (h : Values stack) :
    push .dropped isLast stack .dotDot = trailing isLast ++ stack.drop 1 := by
  cases stack with
  | nil => rfl
  | cons s below => rw [push_dotDot_cons isLast (values_cons.1 h).1, List.drop_one, List.tail_cons]

/-- Dropping an unmatched `..` never leaves a step on the stack. -/
theorem values_push_dropped (isLast : Bool) (h : Values stack) (s : Segment) :
    Values (push .dropped isLast stack s) := by
  cases s with
  | dot => simp [h]
  | dotDot =>
    rw [push_dropped_dotDot isLast h]
    exact values_append.2 ⟨values_trailing isLast, h.drop 1⟩
  | value t => simp [h]

theorem values_pushAll_dropped (h : Values stack) (segments : List Segment) :
    Values (pushAll .dropped stack segments) := by
  induction segments generalizing stack with
  | nil => exact h
  | cons s segments ih => exact ih (values_push_dropped false h s)

theorem eq_empty_of_mem_trailing {isLast : Bool} (h : s ∈ trailing isLast) : s = .empty := by
  cases isLast with
  | false => cases h
  | true => exact List.mem_singleton.1 h

/-- A push takes segments from the path and the stack, but for the empty one that a last step leaves. -/
theorem mem_push {isLast : Bool} {x : Segment} (h : x ∈ push u isLast stack s) :
    x = s ∨ x ∈ stack ∨ x = .empty := by
  cases s with
  | value t =>
    rcases List.mem_cons.1 h with h | h
    · exact .inl h
    · exact .inr (.inl h)
  | dot =>
    rcases List.mem_append.1 h with h | h
    · exact .inr (.inr (eq_empty_of_mem_trailing h))
    · exact .inr (.inl h)
  | dotDot =>
    rcases stack with _ | ⟨_ | _ | t, below⟩ <;> cases u <;>
      simp only [push, List.mem_append, List.mem_cons] at h ⊢ <;>
      grind [eq_empty_of_mem_trailing]

theorem mem_removeOnto {x : Segment} (h : x ∈ removeOnto u stack segments) :
    x ∈ segments ∨ x ∈ stack ∨ x = .empty := by
  induction segments generalizing stack with
  | nil => simpa [removeOnto] using Or.inl h
  | cons s segments ih =>
    rcases ih h with h | h | h
    · exact .inl (List.mem_cons_of_mem _ h)
    · rcases mem_push h with h | h | h
      · exact .inl (h ▸ List.mem_cons_self)
      · exact .inr (.inl h)
      · exact .inr (.inr h)
    · exact .inr (.inr h)

theorem mem_remove {x : Segment} (h : x ∈ remove u segments) : x ∈ segments ∨ x = .empty := by
  simpa using mem_removeOnto h

/-! ### What a run leaves -/

/-- Without kept `..`, nothing but values is left. -/
theorem values_remove_dropped (segments : List Segment) : Values (remove .dropped segments) := by
  cases segments using List.reverseRecOn with
  | nil => exact values_nil
  | append_singleton segments s =>
    rw [remove_concat, values_reverse]
    exact values_push_dropped true (values_pushAll_dropped values_nil segments) s

theorem push_ne_nil (s : Segment) : push u true stack s ≠ [] := by
  cases s with
  | dot => simp [trailing]
  | dotDot => rcases stack with _ | ⟨_ | _ | t, below⟩ <;> cases u <;> simp [push, trailing]
  | value t => simp

/-- A step at the end leaves an empty segment, so something is left of any path. -/
theorem remove_ne_nil (h : segments ≠ []) : remove u segments ≠ [] := by
  cases segments using List.reverseRecOn with
  | nil => exact absurd rfl h
  | append_singleton segments s =>
    rw [remove_concat]
    simpa using push_ne_nil s

theorem pushAll_of_values (h : Values segments) : pushAll u stack segments = segments.reverse ++ stack := by
  induction segments generalizing stack with
  | nil => rfl
  | cons s segments ih =>
    obtain ⟨hs, hr⟩ := values_cons.1 h
    rw [pushAll_cons, push_of_isValue false hs, ih hr]
    simp

theorem removeOnto_of_values (h : Values segments) :
    removeOnto u stack segments = stack.reverse ++ segments := by
  cases segments using List.reverseRecOn with
  | nil => simp [removeOnto]
  | append_singleton segments s =>
    obtain ⟨hr, hs⟩ := values_append.1 h
    rw [removeOnto_concat, pushAll_of_values hr, push_of_isValue true (values_cons.1 hs).1]
    simp

/-- Values stay as they are. -/
theorem remove_of_values (h : Values segments) : remove u segments = segments := by
  have : removeOnto u [] segments = [].reverse ++ segments := removeOnto_of_values h
  simpa [remove] using this

theorem pushAll_kept_replicate (j k : Nat) :
    pushAll .kept (List.replicate j .dotDot) (List.replicate k .dotDot) = List.replicate (j + k) .dotDot := by
  induction k generalizing j with
  | zero => rfl
  | succ k ih =>
    rw [List.replicate_succ, pushAll_cons, push_kept_dotDot, ih]
    congr 1
    omega

/-- Leading `..` stay as they are where they are kept. -/
theorem remove_kept_of_leading (h : Leading segments) : remove .kept segments = segments := by
  obtain ⟨k, vs, rfl, hv⟩ := h
  have hp : pushAll .kept [] (List.replicate k .dotDot) = List.replicate k .dotDot := by
    simpa using pushAll_kept_replicate 0 k
  cases vs using List.reverseRecOn with
  | nil =>
    cases k with
    | zero => rfl
    | succ k =>
      have hk := pushAll_kept_replicate 0 k
      rw [List.append_nil, List.replicate_succ', remove_concat]
      simp only [List.replicate_zero, Nat.zero_add] at hk
      rw [hk, push_kept_dotDot, List.reverse_replicate, List.replicate_succ']
  | append_singleton vs v =>
    rw [remove, removeOnto_append (by simp), hp, removeOnto_of_values hv, List.reverse_replicate]

/-- A `.` at the start of a longer path makes no difference. -/
theorem remove_dot_cons (h : segments ≠ []) : remove u (.dot :: segments) = remove u segments := by
  have : removeOnto u [] ([.dot] ++ segments) = removeOnto u (pushAll u [] [.dot]) segments := removeOnto_append h
  simpa [remove, trailing] using this

/-! ### The two stacks -/

/-- One more segment keeps the two stacks in step. -/
theorem push_split (hv : Values vs) (hb : Values below) (k : Nat) (s : Segment) :
    ∃ vs' k', Values vs' ∧
      push .kept false (vs ++ List.replicate k .dotDot) s = vs' ++ List.replicate k' .dotDot ∧
      push .dropped false (vs ++ below.drop k) s = vs' ++ below.drop k' := by
  cases s with
  | dot => exact ⟨vs, k, hv, rfl, rfl⟩
  | value t => exact ⟨.value t :: vs, k, by simp [hv], rfl, rfl⟩
  | dotDot =>
    cases vs with
    | nil =>
      refine ⟨[], k + 1, hv, push_kept_dotDot false k, ?_⟩
      rw [List.nil_append, push_dropped_dotDot false (hb.drop k), List.drop_drop]
      rfl
    | cons v vs =>
      obtain ⟨hv, hvs⟩ := values_cons.1 hv
      exact ⟨vs, k, hvs, push_dotDot_cons false hv, push_dotDot_cons false hv⟩

theorem pushAll_split (hb : Values below) (segments : List Segment) :
    ∃ vs k, Values vs ∧ pushAll .kept [] segments = vs ++ List.replicate k .dotDot ∧
      pushAll .dropped below segments = vs ++ below.drop k := by
  induction segments using List.reverseRecOn with
  | nil => exact ⟨[], 0, values_nil, rfl, rfl⟩
  | append_singleton segments s ih =>
    obtain ⟨vs, k, hv, hk, hd⟩ := ih
    rw [pushAll_concat, pushAll_concat, hk, hd]
    exact push_split hv hb k s

/-- What is left where `..` are kept starts with them. -/
theorem leading_remove_kept (segments : List Segment) : Leading (remove .kept segments) := by
  cases segments using List.reverseRecOn with
  | nil => exact values_nil.leading
  | append_singleton segments s =>
    obtain ⟨vs, k, hv, hk, -⟩ := pushAll_split values_nil segments
    rw [remove_concat, hk]
    have shape : ∀ (ws : List Segment) (n : Nat), Values ws →
        Leading (ws ++ List.replicate n Segment.dotDot).reverse := by
      intro ws n hw
      exact ⟨n, ws.reverse, by simp, values_reverse.2 hw⟩
    cases s with
    | dot => exact shape (.empty :: vs) k (by simp [hv])
    | value t => exact shape (.value t :: vs) k (by simp [hv])
    | dotDot =>
      cases vs with
      | nil =>
        rw [List.nil_append, push_kept_dotDot]
        exact shape [] (k + 1) values_nil
      | cons v vs =>
        obtain ⟨hv, hvs⟩ := values_cons.1 hv
        rw [List.cons_append, push_dotDot_cons true hv]
        exact shape (.empty :: vs) k (by simp [hvs])

theorem pushAll_dropped_replicate (hb : Values below) (k : Nat) :
    pushAll .dropped below (List.replicate k .dotDot) = below.drop k := by
  induction k generalizing below with
  | zero => rfl
  | succ k ih =>
    rw [List.replicate_succ, pushAll_cons, push_dropped_dotDot false hb]
    change pushAll .dropped (below.drop 1) _ = _
    rw [ih (hb.drop 1), List.drop_drop, Nat.add_comm]

/-- Values on kept `..` take as many segments from the stack below as there are `..`. -/
theorem removeOnto_leading (hb : Values below) (k : Nat) (hv : Values vs) (hne : vs ≠ []) :
    removeOnto .dropped below (List.replicate k .dotDot ++ vs) = (below.drop k).reverse ++ vs := by
  rw [removeOnto_append hne, pushAll_dropped_replicate hb, removeOnto_of_values hv]

theorem removeOnto_replicate (hb : Values below) (k : Nat) :
    removeOnto .dropped below (List.replicate (k + 1) .dotDot) = (below.drop (k + 1)).reverse ++ [.empty] := by
  rw [List.replicate_succ', removeOnto_concat, pushAll_dropped_replicate hb,
    push_dropped_dotDot true (hb.drop k), List.drop_drop]
  simp [trailing]

/-- Taking the steps of a path before it is put in place changes nothing, as long as unmatched `..` are kept. -/
theorem removeOnto_remove_kept (hb : Values below) (hne : segments ≠ []) :
    removeOnto .dropped below (remove .kept segments) = removeOnto .dropped below segments := by
  cases segments using List.reverseRecOn with
  | nil => exact absurd rfl hne
  | append_singleton segments s =>
    obtain ⟨vs, k, hv, hk, hd⟩ := pushAll_split hb segments
    rw [remove_concat, removeOnto_concat, hk, hd]
    cases s with
    | dot =>
      have hw : Values (.empty :: vs).reverse := by simp [hv]
      have := removeOnto_leading hb k hw (by simp)
      simpa [trailing] using this
    | value t =>
      have hw : Values (.value t :: vs).reverse := by simp [hv]
      have := removeOnto_leading hb k hw (by simp)
      simpa using this
    | dotDot =>
      cases vs with
      | nil =>
        -- the `..` is kept as the last segment, and leaves an empty one only where it is taken
        rw [List.nil_append, List.nil_append, push_kept_dotDot, push_dropped_dotDot true (hb.drop k),
          List.reverse_replicate, removeOnto_replicate hb, List.drop_drop]
        simp [trailing]
      | cons v vs =>
        obtain ⟨hv, hvs⟩ := values_cons.1 hv
        rw [List.cons_append, List.cons_append, push_dotDot_cons true hv, push_dotDot_cons true hv]
        have hw : Values (.empty :: vs).reverse := by simp [hvs]
        have := removeOnto_leading hb k hw (by simp)
        simpa [trailing] using this

/-- The same with segments in front. -/
theorem remove_append_remove_kept (hne : rest ≠ []) :
    remove .dropped (segments ++ remove .kept rest) = remove .dropped (segments ++ rest) := by
  have hb : Values (pushAll .dropped [] segments) := values_pushAll_dropped values_nil segments
  calc remove .dropped (segments ++ remove .kept rest)
      = removeOnto .dropped (pushAll .dropped [] segments) (remove .kept rest) :=
        removeOnto_append (remove_ne_nil hne)
    _ = removeOnto .dropped (pushAll .dropped [] segments) rest := removeOnto_remove_kept hb hne
    _ = remove .dropped (segments ++ rest) := (removeOnto_append hne).symm

end DotSegments
end GenericUri
