/-!
# Ascending lists

Lists kept in ascending order of a key, one element a key.
-/
namespace AreaReplication.Ascending

variable {α κ : Type} [LT κ] [DecidableLT κ]

/-- Puts `a` at its place; an element of the same key gives way to it. -/
@[specialize] def insert (key : α → κ) (a : α) : List α → List α
  | [] => [a]
  | b :: rest =>
    if key b < key a then
      b :: insert key a rest
    else if key a < key b then
      a :: b :: rest
    else
      a :: rest

/-- Puts two lists together; of two elements of the same key only the first list's stays. -/
def merge (key : α → κ) : List α → List α → List α
  | [], bs => bs
  | as, [] => as
  | a :: as, b :: bs =>
    if key a < key b then
      a :: merge key as (b :: bs)
    else if key b < key a then
      b :: merge key (a :: as) bs
    else
      a :: merge key as bs
termination_by as bs => as.length + bs.length

end AreaReplication.Ascending
