namespace HindleyMilner

@[ext]
structure SortedSet (κ : Type) [LT κ] where
  members : List κ
  ascending : members.Pairwise (· < ·)

namespace SortedSet

section Basic
variable {κ : Type} [LT κ]

def empty : SortedSet κ where
  members := []
  ascending := .nil

instance : EmptyCollection (SortedSet κ) := ⟨empty⟩

instance : Inhabited (SortedSet κ) := ⟨empty⟩

instance : Membership κ (SortedSet κ) where
  mem s a := a ∈ s.members

theorem mem_def {s : SortedSet κ} {a : κ} : a ∈ s ↔ a ∈ s.members :=
  .rfl

@[simp]
theorem not_mem_empty (a : κ) : a ∉ (∅ : SortedSet κ) :=
  List.not_mem_nil

instance [DecidableEq κ] (s : SortedSet κ) (a : κ) : Decidable (a ∈ s) :=
  inferInstanceAs (Decidable (a ∈ s.members))

def size (s : SortedSet κ) : Nat :=
  s.members.length

def isEmpty (s : SortedSet κ) : Bool :=
  s.members.isEmpty

def max? (s : SortedSet κ) : Option κ :=
  s.members.getLast?

def filter (s : SortedSet κ) (p : κ → Bool) : SortedSet κ where
  members := s.members.filter p
  ascending := s.ascending.filter p

@[simp]
theorem mem_filter {s : SortedSet κ} {p : κ → Bool} {a : κ} : a ∈ s.filter p ↔ a ∈ s ∧ p a :=
  List.mem_filter

def diff [DecidableEq κ] (s t : SortedSet κ) : SortedSet κ :=
  s.filter (· ∉ t)

@[simp]
theorem mem_diff [DecidableEq κ] {s t : SortedSet κ} {a : κ} : a ∈ s.diff t ↔ a ∈ s ∧ a ∉ t := by
  simp [diff]

end Basic

section Order
variable {κ : Type} [LE κ] [LT κ] [Std.IsLinearOrder κ] [Std.LawfulOrderLT κ] [DecidableLT κ]

def insert.go (a : κ) : List κ → List κ
  | [] => [a]
  | b :: bs => if a < b then a :: b :: bs else if b < a then b :: insert.go a bs else b :: bs

theorem insert.mem_go {a c : κ} {bs : List κ} : c ∈ insert.go a bs ↔ c = a ∨ c ∈ bs := by
  induction bs with
  | nil => simp [go]
  | cons b bs ih =>
    simp only [go]
    split
    case isTrue => simp
    case isFalse hlt =>
      split
      case isTrue => simp [ih]; grind
      case isFalse hgt =>
        have : a = b := Std.le_antisymm (Std.not_lt.mp hgt) (Std.not_lt.mp hlt)
        simp [this]

theorem insert.go_ascending {a : κ} {bs : List κ} (h : bs.Pairwise (· < ·)) :
    (insert.go a bs).Pairwise (· < ·) := by
  induction bs with
  | nil => simp [go]
  | cons b bs ih =>
    have ⟨hb, hbs⟩ := List.pairwise_cons.mp h
    simp only [go]
    split
    case isTrue hlt =>
      refine List.pairwise_cons.mpr ⟨fun c hc => ?_, h⟩
      cases hc with
      | head => exact hlt
      | tail _ hc => exact Std.lt_trans hlt (hb c hc)
    case isFalse =>
      split
      case isTrue hgt =>
        refine List.pairwise_cons.mpr ⟨fun c hc => ?_, ih hbs⟩
        cases mem_go.mp hc with
        | inl hc => exact hc ▸ hgt
        | inr hc => exact hb c hc
      case isFalse => exact h

def insert (s : SortedSet κ) (a : κ) : SortedSet κ where
  members := insert.go a s.members
  ascending := insert.go_ascending s.ascending

@[simp]
theorem mem_insert {s : SortedSet κ} {a c : κ} : c ∈ s.insert a ↔ c = a ∨ c ∈ s :=
  insert.mem_go

def ofList (as : List κ) : SortedSet κ :=
  as.foldl insert ∅

def union (s t : SortedSet κ) : SortedSet κ :=
  t.members.foldl insert s

theorem mem_foldl_insert {as : List κ} {s : SortedSet κ} {c : κ} :
    c ∈ as.foldl insert s ↔ c ∈ s ∨ c ∈ as := by
  induction as generalizing s with
  | nil => simp
  | cons a as ih => simp [ih]; grind

@[simp]
theorem mem_ofList {as : List κ} {c : κ} : c ∈ ofList as ↔ c ∈ as := by
  simp [ofList, mem_foldl_insert]

@[simp]
theorem mem_union {s t : SortedSet κ} {c : κ} : c ∈ s.union t ↔ c ∈ s ∨ c ∈ t :=
  mem_foldl_insert

omit [Std.IsLinearOrder κ] [DecidableLT κ] in
theorem nodup (s : SortedSet κ) : s.members.Nodup :=
  List.nodup_iff_pairwise_ne.mpr (s.ascending.imp Std.ne_of_lt)

omit [DecidableLT κ] in
theorem ext_mem {s t : SortedSet κ} (h : ∀ a, a ∈ s ↔ a ∈ t) : s = t := by
  ext1
  refine List.Perm.eq_of_pairwise (fun a b _ _ hab hba => ?_) s.ascending t.ascending
    ((List.perm_ext_iff_of_nodup s.nodup t.nodup).mpr h)
  exact absurd (Std.lt_trans hab hba) Std.lt_irrefl

omit [Std.IsLinearOrder κ] [DecidableLT κ] in
theorem size_le_size {s t : SortedSet κ} (h : ∀ a ∈ s, a ∈ t) : s.size ≤ t.size :=
  List.Nodup.length_le_of_subset s.nodup (h · ·)

omit [Std.IsLinearOrder κ] [DecidableLT κ] in
theorem size_lt_size {s t : SortedSet κ} {a : κ} (h : ∀ b ∈ s, b ∈ t) (ht : a ∈ t) (hs : a ∉ s) :
    s.size < t.size := by
  have hn : (a :: s.members).Nodup := List.nodup_cons.mpr ⟨hs, s.nodup⟩
  refine Nat.lt_of_succ_le (List.Nodup.length_le_of_subset hn fun b hb => ?_)
  cases hb with
  | head => exact ht
  | tail _ hb => exact h b hb

end Order

end SortedSet

end HindleyMilner
