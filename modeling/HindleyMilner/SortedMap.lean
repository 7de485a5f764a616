namespace HindleyMilner

@[ext]
structure SortedMap (κ : Type) (ν : Type) [LT κ] where
  entries : List (κ × ν)
  ascending : entries.Pairwise (·.1 < ·.1)

namespace SortedMap

section Basic
variable {κ ν : Type} [LT κ]

def empty : SortedMap κ ν where
  entries := []
  ascending := .nil

instance : EmptyCollection (SortedMap κ ν) := ⟨empty⟩

instance : Inhabited (SortedMap κ ν) := ⟨empty⟩

def size (m : SortedMap κ ν) : Nat :=
  m.entries.length

def isEmpty (m : SortedMap κ ν) : Bool :=
  m.entries.isEmpty

def keys (m : SortedMap κ ν) : List κ :=
  m.entries.map (·.1)

def get? [DecidableEq κ] (m : SortedMap κ ν) (k : κ) : Option ν :=
  m.entries.lookup k

@[simp]
theorem get?_empty [DecidableEq κ] (k : κ) : (∅ : SortedMap κ ν).get? k = none :=
  rfl

def filterKeys (m : SortedMap κ ν) (p : κ → Bool) : SortedMap κ ν where
  entries := m.entries.filter (p ·.1)
  ascending := m.ascending.filter _

@[simp]
theorem get?_filterKeys [DecidableEq κ] (m : SortedMap κ ν) (p : κ → Bool) (k : κ) :
    (m.filterKeys p).get? k = if p k then m.get? k else none := by
  simp only [get?, filterKeys]
  induction m.entries with
  | nil => simp
  | cons e es ih => grind

def erase [DecidableEq κ] (m : SortedMap κ ν) (k : κ) : SortedMap κ ν :=
  m.filterKeys (· ≠ k)

def mapValues {μ : Type} (m : SortedMap κ ν) (f : κ → ν → μ) : SortedMap κ μ where
  entries := m.entries.map fun e => (e.1, f e.1 e.2)
  ascending := List.pairwise_map.mpr m.ascending

@[simp]
theorem get?_mapValues {μ : Type} [DecidableEq κ] (m : SortedMap κ ν) (f : κ → ν → μ) (k : κ) :
    (m.mapValues f).get? k = (m.get? k).map (f k) := by
  simp only [get?, mapValues]
  induction m.entries with
  | nil => simp
  | cons e es ih => grind

end Basic

section Order
variable {κ ν : Type} [LE κ] [LT κ] [Std.IsLinearOrder κ] [Std.LawfulOrderLT κ] [DecidableLT κ]

def insert.go (k : κ) (v : ν) : List (κ × ν) → List (κ × ν)
  | [] => [(k, v)]
  | e :: es =>
    if k < e.1 then (k, v) :: e :: es
    else if e.1 < k then e :: insert.go k v es
    else (k, v) :: es

omit [LE κ] [Std.IsLinearOrder κ] [Std.LawfulOrderLT κ] in
theorem insert.key_of_mem_go {k : κ} {v : ν} {e : κ × ν} {es : List (κ × ν)}
    (h : e ∈ insert.go k v es) : e.1 = k ∨ e ∈ es := by
  induction es with
  | nil => simp_all [go]
  | cons d ds ih =>
    simp only [go] at h
    grind

theorem insert.go_ascending {k : κ} {v : ν} {es : List (κ × ν)}
    (h : es.Pairwise (·.1 < ·.1)) : (insert.go k v es).Pairwise (·.1 < ·.1) := by
  induction es with
  | nil => simp [go]
  | cons e es ih =>
    have ⟨he, hes⟩ := List.pairwise_cons.mp h
    simp only [go]
    split
    case isTrue hlt =>
      refine List.pairwise_cons.mpr ⟨fun d hd => ?_, h⟩
      cases hd with
      | head => exact hlt
      | tail _ hd => exact Std.lt_trans hlt (he d hd)
    case isFalse hlt =>
      split
      case isTrue hgt =>
        refine List.pairwise_cons.mpr ⟨fun d hd => ?_, ih hes⟩
        cases key_of_mem_go hd with
        | inl hd => exact hd ▸ hgt
        | inr hd => exact he d hd
      case isFalse hgt =>
        have hk : k = e.1 := Std.le_antisymm (Std.not_lt.mp hgt) (Std.not_lt.mp hlt)
        exact List.pairwise_cons.mpr ⟨fun d hd => hk ▸ he d hd, hes⟩

def insert (m : SortedMap κ ν) (k : κ) (v : ν) : SortedMap κ ν where
  entries := insert.go k v m.entries
  ascending := insert.go_ascending m.ascending

@[simp]
theorem get?_insert [DecidableEq κ] (m : SortedMap κ ν) (k : κ) (v : ν) (j : κ) :
    (m.insert k v).get? j = if j = k then some v else m.get? j := by
  simp only [get?, insert]
  induction m.entries with
  | nil => grind [insert.go]
  | cons e es ih =>
    simp only [insert.go]
    split
    case isTrue => grind
    case isFalse hlt =>
      split
      case isTrue hgt =>
        have : e.1 ≠ k := fun h => Std.lt_irrefl (h ▸ hgt)
        grind
      case isFalse hgt =>
        have hk : k = e.1 := Std.le_antisymm (Std.not_lt.mp hgt) (Std.not_lt.mp hlt)
        grind

end Order

end SortedMap

end HindleyMilner
