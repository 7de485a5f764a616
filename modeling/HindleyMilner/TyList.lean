import HindleyMilner.Ty

namespace HindleyMilner.TyList

inductive AccessError where
  | get (i : Int)
  | set (i : Int)
  | sliceStart (i : Int)
  | sliceStop (i : Int)
  | sliceOrder (start stop : Int)
  -- The builder has yielded its list.
  | spent
  | yieldedTwice
deriving Inhabited, Repr, DecidableEq

namespace AccessError

def message : AccessError → String
  | .get i => "immutable.List.Get: index " ++ toString i ++ " out of bounds"
  | .set i => "immutable.List.Set: index " ++ toString i ++ " out of bounds"
  | .sliceStart i => "immutable.List.Slice: start index " ++ toString i ++ " out of bounds"
  | .sliceStop i => "immutable.List.Slice: end index " ++ toString i ++ " out of bounds"
  | .sliceOrder i j =>
    "immutable.List.Slice: invalid slice index: [" ++ toString i ++ ":" ++ toString j ++ "]"
  | .spent => "immutable.ListBuilder: builder invalid after List() invocation"
  | .yieldedTwice => "immutable.ListBuilder.List(): duplicate call to fetch list"

end AccessError

def InBounds (i : Int) (ts : List Ty) : Prop :=
  0 ≤ i ∧ i < ts.length

instance (i : Int) (ts : List Ty) : Decidable (InBounds i ts) :=
  inferInstanceAs (Decidable (_ ∧ _))

def get (ts : List Ty) (i : Int) : Except AccessError Ty :=
  if h : InBounds i ts then
    .ok (ts.get ⟨i.toNat, by have := h.1; have := h.2; omega⟩)
  else
    .error (.get i)

def slice (ts : List Ty) (start stop : Int) : Except AccessError (List Ty) :=
  if start < 0 ∨ ts.length < start then .error (.sliceStart start)
  else if stop < 0 ∨ ts.length < stop then .error (.sliceStop stop)
  else if stop < start then .error (.sliceOrder start stop)
  else .ok ((ts.take stop.toNat).drop start.toNat)

inductive Builder where
  | filling (elems : List Ty)
  | spent
deriving Inhabited

namespace Builder

def new : Builder :=
  .filling []

def ofList (ts : List Ty) : Builder :=
  .filling ts

def size : Builder → Except AccessError Nat
  | .filling ts => .ok ts.length
  | .spent => .error .spent

def append (b : Builder) (t : Ty) : Except AccessError Builder :=
  match b with
  | .filling ts => .ok (.filling (ts ++ [t]))
  | .spent => .error .spent

def set (b : Builder) (i : Int) (t : Ty) : Except AccessError Builder :=
  match b with
  | .filling ts => if InBounds i ts then .ok (.filling (ts.set i.toNat t)) else .error (.set i)
  | .spent => .error .spent

def yield : Builder → Except AccessError (List Ty × Builder)
  | .filling ts => .ok (ts, .spent)
  | .spent => .error .yieldedTwice

end Builder

end HindleyMilner.TyList
