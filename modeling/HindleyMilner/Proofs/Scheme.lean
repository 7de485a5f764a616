import HindleyMilner.Proofs.TypeEnv

namespace HindleyMilner.Scheme

variable {σ : Scheme} {s : Subst} {y : TyVar}

def incoming (σ : Scheme) (s : Subst) : VarSet :=
  .ofList (σ.freeVars.members.flatMap fun x => (s.apply (.var x)).vars)

theorem mem_incoming : y ∈ σ.incoming s ↔ ∃ x ∈ σ.freeVars, y ∈ (s.image x).vars := by
  simp only [incoming, SortedSet.mem_ofList, List.mem_flatMap, Subst.apply_var]
  rfl

theorem mem_freeVars_apply_iff :
    y ∈ (σ.apply s).freeVars ↔ y ∈ σ.incoming s ∧ y ∉ σ.vars := by
  constructor
  case mp =>
    intro h
    exact ⟨mem_incoming.mpr (mem_freeVars_of_apply h), (mem_freeVars.mp h).right⟩
  case mpr =>
    intro ⟨hy, hq⟩
    obtain ⟨x, hx, hy⟩ := mem_incoming.mp hy
    obtain ⟨hb, hxq⟩ := mem_freeVars.mp hx
    refine mem_freeVars.mpr ⟨Ty.mem_vars_subst.mpr ⟨x, hb, ?_⟩, hq⟩
    simpa [Subst.image_without, hxq] using hy

theorem noCapture_iff : σ.NoCapture s ↔ ∀ y ∈ σ.incoming s, y ∉ σ.vars := by
  constructor
  case mp =>
    intro h y hy
    obtain ⟨x, hx, hy⟩ := mem_incoming.mp hy
    exact h x hx y hy
  case mpr => exact fun h x hx y hy => h y (mem_incoming.mpr ⟨x, hx, hy⟩)

-- Of the variables that come in, those that are quantified are lost. So all of them are free
-- afterwards exactly if none is captured.
theorem freeVars_apply_exact (σ : Scheme) (s : Subst) :
    (σ.apply s).freeVars = (σ.incoming s).diff σ.vars ∧
      ((σ.apply s).freeVars = σ.incoming s ↔ σ.NoCapture s) := by
  have exact : (σ.apply s).freeVars = (σ.incoming s).diff σ.vars :=
    SortedSet.ext_mem fun y => by rw [mem_freeVars_apply_iff, SortedSet.mem_diff]
  refine ⟨exact, ?_⟩
  rw [noCapture_iff]
  constructor
  case mp =>
    intro h y hy
    exact (mem_freeVars_apply_iff.mp (h ▸ hy)).right
  case mpr =>
    intro h
    refine SortedSet.ext_mem fun y => mem_freeVars_apply_iff.trans ?_
    exact and_iff_left_of_imp (h y)

-- `'a -> '_1`, where `'a` is the variable 0.
def constantTo : Scheme where
  vars := .ofList [0]
  body := .arrow (.var 0) (.var 1)

def oneIsZero : Subst :=
  (∅ : Subst).insert 1 (.var 0)

-- It becomes `'a -> 'a`, and the variable 0 that has come in for 1 is not free.
theorem freeVars_apply_captured :
    oneIsZero.Solved ∧ constantTo.freeVars.members = [1] ∧
      (constantTo.incoming oneIsZero).members = [0] ∧
      (constantTo.apply oneIsZero).freeVars.members = [] ∧
      (constantTo.apply oneIsZero).freeVars ≠ constantTo.incoming oneIsZero := by
  have incoming : (constantTo.incoming oneIsZero).members = [0] := by cbv
  have free : (constantTo.apply oneIsZero).freeVars.members = [] := by cbv
  refine ⟨?_, by cbv, incoming, free, fun h => ?_⟩
  · simpa [oneIsZero] using
      Subst.Solved.empty.insert (t := .var 0) (Subst.not_mentions_empty 1) (by decide)
  · rw [h, incoming] at free
    cases free

section Instantiate

variable {n : Supply}

theorem instantiate_apply (hn : ∀ i < σ.vars.size, s.get? (n.nth i) = none) (hc : σ.NoCapture s) :
    (σ.apply s).instantiate n = (s.apply (σ.instantiate n).1, (σ.instantiate n).2) := by
  refine Prod.ext ?_ rfl
  simp only [instantiate, apply, Subst.apply, Ty.subst_subst]
  refine Ty.subst_congr fun x hx => ?_
  rw [Subst.image_without]
  by_cases hq : x ∈ σ.vars
  case pos =>
    have hi : σ.vars.members.idxOf x < σ.vars.size := List.idxOf_lt_length_of_mem hq
    simp [hq, Subst.image_of_get?_none (hn _ hi)]
  case neg =>
    simp only [hq, if_false, Ty.subst_var]
    -- No variable that comes in for `x` is made fresh.
    exact Ty.subst_eq_self fun y hy => if_neg (hc x (mem_freeVars.mpr ⟨hx, hq⟩) y hy)

-- The bindings of `s` may be applied before or after. The same variables are taken either way, one
-- for each that is quantified.
theorem instantiate_apply_commutes (σ : Scheme) (s : Subst) (n : Supply)
    (hw : n.next.toInt + σ.vars.size < 2 ^ 63)
    (hk : ∀ x t, s.get? x = some t →
      ¬(n.next.toInt ≤ x.toInt ∧ x.toInt < n.next.toInt + σ.vars.size))
    (hc : σ.NoCapture s) :
    ((σ.apply s).instantiate n).1 = s.apply (σ.instantiate n).1 ∧
    ((σ.apply s).instantiate n).2 = (σ.instantiate n).2 ∧
    (σ.instantiate n).2.count = n.count + σ.vars.size ∧
    (σ.instantiate n).2.next.toInt = n.next.toInt + σ.vars.size := by
  have unbound (i : Nat) (hi : i < σ.vars.size) : s.get? (n.nth i) = none := by
    cases hx : s.get? (n.nth i)
    case none => rfl
    case some t =>
      have hni : (n.nth i).toInt = n.next.toInt + i := Supply.toInt_nth (by omega)
      exact absurd ⟨by omega, by omega⟩ (hk _ t hx)
  rw [instantiate_apply unbound hc]
  exact ⟨rfl, rfl, rfl, Supply.toInt_nth hw⟩

-- `('a -> 'b) -> 'b * '_3`, where `'a` and `'b` are the variables 0 and 1.
def applyAndKeep : Scheme where
  vars := .ofList [0, 1]
  body := .arrow (.arrow (.var 0) (.var 1)) (.tuple [.var 1, .var 3])

def zeroIsBool : Subst :=
  ((∅ : Subst).insert 0 .bool).insert 3 (.list (.var 5))

theorem instantiate_apply_commutes_overlapping :
    ((applyAndKeep.apply zeroIsBool).instantiate { next := 1 }).1 =
      zeroIsBool.apply (applyAndKeep.instantiate { next := 1 }).1 ∧
    ((applyAndKeep.apply zeroIsBool).instantiate { next := 1 }).2 = { next := 3, count := 2 } ∧
    zeroIsBool.apply (applyAndKeep.instantiate { next := 1 }).1 =
      .arrow (.arrow (.var 1) (.var 2)) (.tuple [.var 2, .list (.var 5)]) := by
  have keys : ∀ b ∈ zeroIsBool.entries, ¬((1 : Int) ≤ b.1.toInt ∧ b.1.toInt < 1 + 2) := by decide
  have incoming : (applyAndKeep.incoming zeroIsBool).members = [5] := by cbv
  have outside : ∀ y ∈ ([5] : List TyVar), y ∉ applyAndKeep.vars := by
    simp [applyAndKeep]
  obtain ⟨same, taken, -, -⟩ := instantiate_apply_commutes applyAndKeep zeroIsBool { next := 1 }
    (by decide) (fun x t h => keys (x, t) (Subst.mem_entries_iff.mpr h))
    (noCapture_iff.mpr fun y hy => outside y (incoming ▸ hy))
  exact ⟨same, taken.trans (by cbv), by cbv⟩

end Instantiate

end HindleyMilner.Scheme
