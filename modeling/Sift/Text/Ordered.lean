/-!
# Lists in the order of a name

Names are ordered by code point. A list that only grows by `insertBy` is in strictly increasing
order of its names, so it holds one entry for each.
-/

namespace Sift.Text

/-- Puts `a` at the place of its name, where it replaces an entry of the same name. -/
def insertBy {α : Type} (name : α → String) (a : α) : List α → List α
  | [] => [a]
  | b :: r =>
    if name a < name b then a :: b :: r
    else if name a = name b then a :: r
    else b :: insertBy name a r

end Sift.Text
