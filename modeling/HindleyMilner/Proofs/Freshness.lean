import HindleyMilner.Context
import HindleyMilner.Proofs.TypeEnv

namespace HindleyMilner

open Infer

namespace SortedSet

variable {κ : Type} [LE κ] [LT κ] [Std.IsLinearOrder κ] [Std.LawfulOrderLT κ] {s : SortedSet κ}
  {a b : κ}

omit [LE κ] [Std.IsLinearOrder κ] [Std.LawfulOrderLT κ] in
theorem not_mem_of_max?_eq_none (h : s.max? = none) (a : κ) : a ∉ s := by
  have : s.members = [] := List.getLast?_eq_none_iff.mp h
  simp [mem_def, this]

omit [LE κ] [Std.IsLinearOrder κ] [Std.LawfulOrderLT κ] in
theorem mem_of_max?_eq_some (h : s.max? = some b) : b ∈ s :=
  mem_def.mpr (List.mem_of_getLast? h)

theorem le_of_max?_eq_some (h : s.max? = some b) (ha : a ∈ s) : a ≤ b := by
  obtain ⟨as, hs⟩ := List.getLast?_eq_some_iff.mp h
  have hp := s.ascending
  rw [mem_def, hs, List.mem_append, List.mem_singleton] at ha
  rw [hs, List.pairwise_append] at hp
  cases ha
  case inl ha => exact Std.le_of_lt (hp.right.right a ha b (List.mem_singleton_self b))
  case inr ha => exact ha ▸ Std.le_refl b

end SortedSet

namespace Supply

def freshes {ε : Type} : Nat → Infer ε (List TyVar)
  | 0 => return []
  | k + 1 => return (← fresh) :: (← freshes k)

theorem freshes_eq_ok {ε : Type} (k : Nat) (n : Supply) :
    (freshes k : Infer ε (List TyVar)) n = .ok ((List.range k).map n.nth) (n.drop k) := by
  induction k generalizing n
  case zero => simp [freshes]
  case succ k ih =>
    simp [freshes, ih, List.range_succ_eq_map, nth_drop, Function.comp_def, Nat.add_comm 1]

end Supply

namespace TypeEnv

variable {env : TypeEnv} {x : TyVar}

-- The first number behind all free variables that is not negative. If the greatest of all variables
-- is free, no variable has this number.
def ceiling (env : TypeEnv) : Nat :=
  match env.freeVars.max? with
  | some x => (x.toInt + 1).toNat
  | none => 0

theorem ceiling_le (env : TypeEnv) : env.ceiling ≤ 2 ^ 63 := by
  rw [ceiling]
  split
  case h_1 x _ =>
    have := x.toInt_lt
    omega
  case h_2 => omega

theorem exists_ceiling_eq (hx : x ∈ env.freeVars) :
    ∃ y ∈ env.freeVars, x ≤ y ∧ env.ceiling = (y.toInt + 1).toNat := by
  cases h : env.freeVars.max?
  case none => exact absurd hx (SortedSet.not_mem_of_max?_eq_none h x)
  case some y =>
    refine ⟨y, SortedSet.mem_of_max?_eq_some h, SortedSet.le_of_max?_eq_some h hx, ?_⟩
    simp [ceiling, h]

theorem toInt_lt_ceiling (hx : x ∈ env.freeVars) : x.toInt < env.ceiling := by
  obtain ⟨y, _, hy, hc⟩ := exists_ceiling_eq hx
  have := Int64.le_iff_toInt_le.mp hy
  omega

end TypeEnv

theorem ofNat_eq_iff_emod {k : Nat} {x : TyVar} :
    Int64.ofNat k = x ↔ ((k : Int) - x.toInt) % 2 ^ 64 = 0 := by
  have := x.le_toInt
  have := x.toInt_lt
  rw [← Int64.toInt_inj, Int64.toInt_ofNat', Int64.size, Int.bmod]
  split <;> omega

theorem exists_ofNat_eq_iff {b k : Nat} {x : TyVar} (hx : x.toInt < b) (hb : b ≤ 2 ^ 63) :
    (∃ i < k, Int64.ofNat (b + i) = x) ↔ 2 ^ 64 + x.toInt < b + k := by
  have := x.le_toInt
  simp only [ofNat_eq_iff_emod]
  constructor
  case mp =>
    rintro ⟨i, hi, h⟩
    omega
  case mpr => exact fun h => ⟨(2 ^ 64 + x.toInt - b).toNat, by omega, by omega⟩

namespace Context

theorem next_start (c : Context) (env : TypeEnv) :
    (c.start env).supply.next = Int64.ofNat env.ceiling := by
  change (Supply.skipPast {} env.freeVars).next = _
  cases h : env.freeVars.max?
  case none => simp [Supply.skipPast, TypeEnv.ceiling, h]
  case some x =>
    have := x.le_toInt
    have := x.toInt_lt
    have zero : (0 : Int64).toInt = 0 := rfl
    have one : (1 : Int64).toInt = 1 := rfl
    simp only [Supply.skipPast, TypeEnv.ceiling, h]
    split
    case isTrue hx =>
      rw [Int64.le_iff_toInt_le, zero] at hx
      rw [← Int64.toInt_inj, Int64.toInt_add, one, Int64.toInt_ofNat',
        Int.toNat_of_nonneg (by omega)]
    case isFalse hx =>
      rw [Int64.le_iff_toInt_le, zero] at hx
      rw [Int.toNat_eq_zero.mpr (by omega)]
      rfl

theorem nth_start (c : Context) (env : TypeEnv) (i : Nat) :
    (c.start env).supply.nth i = Int64.ofNat (env.ceiling + i) := by
  rw [Supply.nth, next_start, Int64.ofNat_add]

theorem exists_nth_start_eq_iff {env : TypeEnv} {x : TyVar} (c : Context) (hx : x ∈ env.freeVars)
    (k : Nat) :
    (∃ i < k, (c.start env).supply.nth i = x) ↔ 2 ^ 64 + x.toInt < env.ceiling + k := by
  simp only [nth_start]
  exact exists_ofNat_eq_iff (TypeEnv.toInt_lt_ceiling hx) env.ceiling_le

-- A run comes to a free variable exactly if it is long enough to wrap around and to reach it from
-- below. In less than `2 ^ 63` steps it does not, unless two free variables lie more than `2 ^ 63`
-- apart.
theorem fresh_collides_iff (c : Context) (env : TypeEnv) (k : Nat) :
    ∃ xs m, (Supply.freshes k : Infer Failure (List TyVar)) (c.start env).supply = .ok xs m ∧
      xs.length = k ∧
      ((∃ x ∈ xs, x ∈ env.freeVars) ↔
        ∃ x ∈ env.freeVars, 2 ^ 64 + x.toInt < env.ceiling + k) ∧
      (k < 2 ^ 63 → (∀ x ∈ env.freeVars, ∀ y ∈ env.freeVars, y.toInt - x.toInt ≤ 2 ^ 63) →
        ∀ x ∈ xs, x ∉ env.freeVars) := by
  have collides : (∃ x ∈ (List.range k).map (c.start env).supply.nth, x ∈ env.freeVars) ↔
      ∃ x ∈ env.freeVars, 2 ^ 64 + x.toInt < env.ceiling + k := by
    simp only [List.mem_map, List.mem_range]
    constructor
    case mp =>
      rintro ⟨x, hi, hx⟩
      exact ⟨x, hx, (exists_nth_start_eq_iff c hx k).mp hi⟩
    case mpr =>
      rintro ⟨x, hx, hi⟩
      exact ⟨x, (exists_nth_start_eq_iff c hx k).mpr hi, hx⟩
  refine ⟨_, _, Supply.freshes_eq_ok k _, by simp, collides, fun hk near y hy hfree => ?_⟩
  obtain ⟨x, hx, hlt⟩ := collides.mp ⟨y, hy, hfree⟩
  obtain ⟨z, hz, _, hc⟩ := TypeEnv.exists_ceiling_eq hx
  have := near x hx z hz
  have := x.le_toInt
  omega

def extremes : TypeEnv :=
  (TypeEnv.declareMono ∅ "a" (.var Int64.maxValue)).declareMono "b" (.var Int64.minValue)

-- `fun x -> (x + 1, b && true)`
def addAndTest : Expr :=
  .lam (.var "x") (.tuple [.binop (some .add) (.var "x") (.int 1),
    .binop (some .and) (.var "b") (.bool true)])

-- Behind the greatest variable comes the least one. Here it is free, and is taken for the parameter
-- as well: the one type of `b` and `x` would have to be both `int` and `bool`.
theorem fresh_collides_extremes :
    (∃ m, (Supply.freshes 1 : Infer Failure (List TyVar)) (start {} extremes).supply =
      .ok [Int64.minValue] m) ∧ Int64.minValue ∈ extremes.freeVars ∧
    (infer {} extremes addAndTest).1 = .error (.unify (.mismatch .int .bool)) :=
  ⟨⟨_, rfl⟩, by decide, by cbv⟩

end Context

end HindleyMilner
