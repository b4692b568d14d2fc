import GenericUri.Segment

/-!
# DotSegments — taking the steps of a path

`remove` carries out the steps `.` and `..` of a list of segments.  What is done stands on a stack, last segment first.
A step at the very end leaves an empty segment, so that `a/b/..` and `a/` agree.
-/

namespace GenericUri.DotSegments

/-- What becomes of a `..` that finds nothing to undo. -/
inductive Unmatched
  | kept | dropped
  deriving DecidableEq

/-- The empty segment that a step leaves at the end of a path. -/
def trailing (isLast : Bool) : List Segment := if isLast then [.empty] else []

/-- The stack after one more segment. -/
def push (u : Unmatched) (isLast : Bool) (stack : List Segment) : Segment → List Segment
  | .dot => trailing isLast ++ stack
  | .dotDot =>
    match stack, u with
    | [], .kept | .dotDot :: _, .kept => .dotDot :: stack
    | [], .dropped | .dotDot :: _, .dropped => trailing isLast ++ stack
    | _ :: below, _ => trailing isLast ++ below
  | .value t => .value t :: stack

def removeOnto (u : Unmatched) (stack : List Segment) : List Segment → List Segment
  | [] => stack.reverse
  | s :: rest => removeOnto u (push u rest.isEmpty stack s) rest

/-- The segments with their steps taken. -/
def remove (u : Unmatched) (segments : List Segment) : List Segment := removeOnto u [] segments

end GenericUri.DotSegments
