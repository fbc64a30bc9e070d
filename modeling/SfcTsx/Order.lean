namespace SfcTsx

def insertBy {α : Type} (le : α → α → Bool) (a : α) : List α → List α
  | [] => [a]
  | b :: bs => if le a b then a :: b :: bs else b :: insertBy le a bs

/-- Sorts by an order, keeping the order of items that are equal in it. -/
def sortBy {α : Type} (le : α → α → Bool) : List α → List α
  | [] => []
  | a :: as => insertBy le a (sortBy le as)

def sortOn {α : Type} (key : α → Nat) (items : List α) : List α :=
  sortBy (fun a b => key a ≤ key b) items

/-- Looks for an item that is neither too small nor too large, between two indices of an ascending array:
where one is, or else where one would have to stand. -/
def searchBetween {α : Type} (order : α → Ordering) (xs : Array α) (lo hi : Nat) : Except Nat Nat :=
  if lo < hi then
    let mid := (lo + hi) / 2
    match xs[mid]? with
    | some x =>
      match order x with
      | .lt => searchBetween order xs (mid + 1) hi
      | .gt => searchBetween order xs lo mid
      | .eq => .ok mid
    | none => .error lo
  else .error lo
termination_by hi - lo

def searchBy {α : Type} (order : α → Ordering) (xs : Array α) : Except Nat Nat :=
  searchBetween order xs 0 xs.size

/-- How many items of an array have a property that only the first ones have. -/
def partitionPoint {α : Type} (p : α → Bool) (xs : Array α) : Nat :=
  match searchBy (fun x => if p x then .lt else .gt) xs with
  | .ok i | .error i => i

end SfcTsx
