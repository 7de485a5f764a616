import HindleyMilner.Proofs.Scoping

namespace HindleyMilner

def Avoids (D K : TyVar → Prop) (S : TyVar → Ty) : Prop :=
  ∀ x, K x → ¬D x → ∀ y ∈ (S x).vars, ¬D y

namespace Scheme

variable {S S' : TyVar → Ty} {σ σ' : Scheme} {s : Subst} {t : Ty}

-- Under `S`, all instances of `σ` are instances of `σ'`, and what is free in `σ'` comes in for a
-- variable that is free in `σ`.
structure Realized (S : TyVar → Ty) (σ σ' : Scheme) : Prop where
  instances : ∀ τ, σ.InstanceAt S τ → σ'.Instance τ
  free : ∀ y ∈ σ'.freeVars, ∃ x ∈ σ.freeVars, y ∈ (S x).vars

namespace Realized

theorem mono : Realized S (mono t) (mono (t.subst S)) where
  instances τ h := by simpa using h
  free y hy := by simpa [Ty.mem_vars_subst] using hy

theorem congr (h : Realized S σ σ') (hS : ∀ x ∈ σ.freeVars, S x = S' x) : Realized S' σ σ' where
  instances τ hτ := h.instances τ <| hτ.congr fun x hx => (hS x hx).symm
  free y hy :=
    have ⟨x, hx, hy⟩ := h.free y hy
    ⟨x, hx, hS x hx ▸ hy⟩

theorem apply (h : Realized S σ σ') (hS : Subst.Solves S s) (hc : NoCapture s σ) :
    Realized S (σ.apply s) σ' where
  instances τ hτ := h.instances τ <| instanceAt_apply hS hc |>.mp hτ
  free y hy := by
    have ⟨x, hx, hy⟩ := h.free y hy
    rw [← hS.subst_image x] at hy
    have ⟨z, hz, hy⟩ := Ty.mem_vars_subst.mp hy
    exact ⟨z, mem_freeVars_apply hc hx hz, hy⟩

end Realized

end Scheme

namespace TypeEnv

variable {env Γ : TypeEnv} {S S' : TyVar → Ty} {s : Subst} {x y : TyVar} {t : Ty}
  {ks : List String} {δ : String → Ty} {k : String} {scope : List String} {n m : Supply}
  {D P : TyVar → Prop}

abbrev Realizes (S : TyVar → Ty) (env Γ : TypeEnv) : Prop :=
  Rel (Scheme.Realized S) env Γ

namespace Realizes

theorem congr (h : Realizes S env Γ) (hS : ∀ x ∈ env.freeVars, S x = S' x) : Realizes S' env Γ :=
  h.imp fun k σ _ hk hσ => hσ.congr fun x hx => hS x (mem_freeVars.mpr ⟨k, σ, hk, hx⟩)

theorem apply (h : Realizes S env Γ) (hS : Subst.Solves S s) (he : env.Safe P n)
    (hs : s.Within P) : Realizes S (env.apply s) Γ :=
  Rel.apply h fun _ _ _ hk hσ => hσ.apply hS (he.noCapture hs hk)

theorem declareAll (h : Realizes S env Γ) :
    Realizes S (env.declareAll ks δ) (Γ.declareAll ks fun k => (δ k).subst S) :=
  Rel.declareAll h fun _ _ => .mono

theorem declareMono (h : Realizes S env Γ) :
    Realizes S (env.declareMono k t) (Γ.declareMono k (t.subst S)) :=
  Rel.declare h .mono

theorem exists_mem_freeVars (h : Realizes S env Γ) (hy : y ∈ Γ.freeVars) :
    ∃ x ∈ env.freeVars, y ∈ (S x).vars := by
  have ⟨k, σ', hk, hy⟩ := mem_freeVars.mp hy
  have ⟨σ, hσ, hr⟩ := h.exists_left hk
  have ⟨x, hx, hy⟩ := hr.free y hy
  exact ⟨x, mem_freeVars.mpr ⟨k, σ, hσ, hx⟩, hy⟩

end Realizes

-- The variables that a `let` quantifies are dead from there on: no later constraint speaks of them.
def Dead (env : TypeEnv) (s : Subst) (n m : Supply) (x : TyVar) : Prop :=
  n.Taken m x ∧ x ∉ (env.apply s).freeVars

end TypeEnv

namespace Subst

open Classical in
-- What `S` makes of the variables under `s`, except that those of `D` stay as they are.
noncomputable def sparing (D : TyVar → Prop) (s : Subst) (S : TyVar → Ty) (x : TyVar) : Ty :=
  (s.image x).subst fun y => if D y then .var y else S y

theorem Solved.solves_sparing {D : TyVar → Prop} {s : Subst} {S : TyVar → Ty} (hs : s.Solved) :
    Solves (s.sparing D S) s :=
  hs.solves_subst_image _

end Subst

namespace Expr.Scoped

variable {env Γ : TypeEnv} {scope : List String} {n m : Supply} {s : Subst} {t : Ty} {x y : TyVar}
  {S : TyVar → Ty} {D : TyVar → Prop}

section Dead

theorem not_dead_of_mem_image (h : Scoped env n m s t) (he : env.Ready scope n) (hr : n.Reaches m)
    (hx : x ∈ env.freeVars) (hy : y ∈ (s.image x).vars) : ¬env.Dead s n m y :=
  fun hd => hd.right (he.mem_freeVars_apply hr h.within hx hy)

theorem dead_of_hides (he : env.Ready scope n) (hd : s.Hides D) (ht : ∀ x, D x → n.Taken m x)
    (hx : D x) : env.Dead s n m x := by
  refine ⟨ht x hx, fun hf => ?_⟩
  have ⟨y, hy, hxy⟩ := TypeEnv.mem_freeVars_of_apply hf
  exact hd y (fun h => (ht y h).not_lt (he.old y hy)) x hxy hx

theorem hides_dead (h : Scoped env n m s t) (he : env.Ready scope n) (hr : n.Reaches m) :
    s.Hides (env.Dead s n m) := by
  intro x hx y hy hd
  have hyx : y ≠ x := fun h => hx (h ▸ hd)
  cases hg : s.get? x
  case none => exact hyx (by simpa [Subst.image_of_get?_none hg] using hy)
  case some t =>
    cases h.within x (.key hg)
    case inl hf => exact h.not_dead_of_mem_image he hr hf hy hd
    case inr ht =>
      -- A variable that lives on is not bound.
      have hf : x ∈ (env.apply s).freeVars := by_contra fun hf => hx ⟨ht, hf⟩
      have ⟨z, _, hxz⟩ := TypeEnv.mem_freeVars_of_apply hf
      simp [h.solved.get?_of_mem_image hxz] at hg

theorem image_of_mem_vars (h : Scoped env n m s t) (hx : x ∈ t.vars) : s.image x = .var x := by
  have : t.subst s.image = t.subst .var := by simpa [Subst.apply] using h.normal
  exact Ty.eq_of_subst_eq this hx

theorem mem_freeVars_of_not_dead (h : Scoped env n m s t) (he : env.Ready scope n)
    (hr : n.Reaches m) (hx : x ∈ t.vars) (hd : ¬env.Dead s n m x) : x ∈ (env.apply s).freeVars := by
  cases h.vars x hx
  case inl hf => exact he.mem_freeVars_apply hr h.within hf (by simp [h.image_of_mem_vars hx])
  case inr ht => exact by_contra fun hf => hd ⟨ht, hf⟩

end Dead

section Sparing

theorem sparing_of_mem_freeVars (h : Scoped env n m s t) (he : env.Ready scope n) (hr : n.Reaches m)
    (hS : Subst.Solves S s) (hx : x ∈ env.freeVars) : s.sparing (env.Dead s n m) S x = S x := by
  rw [← hS.subst_image x]
  exact Ty.subst_congr fun y hy => if_neg (h.not_dead_of_mem_image he hr hx hy)

theorem avoids_sparing (h : Scoped env n m s t) (he : env.Ready scope n) (hd : s.Hides D)
    (ht : ∀ x, D x → n.Taken m x) (ha : Avoids (env.Dead s n m) (env.Known n m) S) :
    Avoids D (env.Known n m) (s.sparing (env.Dead s n m) S) := by
  intro x hx hxd y hy hyd
  have ⟨z, hz, hy⟩ := Ty.mem_vars_subst.mp hy
  split at hy
  case isTrue =>
    obtain rfl : y = z := by simpa using hy
    exact hd x hxd y hz hyd
  case isFalse hzd =>
    exact ha z (h.within.image hx z hz) hzd y hy (dead_of_hides he hd ht hyd)

theorem realized_generalize (h : Scoped env n m s t) (he : env.Ready scope n) (hr : n.Reaches m)
    (ha : Avoids (env.Dead s n m) (env.Known n m) S) (hΓ : TypeEnv.Realizes S env Γ) :
    Scheme.Realized S ((env.apply s).generalize t)
      (Γ.generalize (t.subst (s.sparing (env.Dead s n m) S))) := by
  classical
  have value {x : TyVar} (hx : x ∈ t.vars) : s.sparing (env.Dead s n m) S x =
      if env.Dead s n m x then .var x else S x := by
    simp [Subst.sparing, h.image_of_mem_vars hx]
  have live {x : TyVar} (hx : x ∈ t.vars) (hd : ¬env.Dead s n m x) :
      x ∈ ((env.apply s).generalize t).freeVars :=
    TypeEnv.mem_freeVars_generalize.mpr ⟨hx, h.mem_freeVars_of_not_dead he hr hx hd⟩
  have free {y : TyVar} (hy : y ∈ Γ.freeVars) : ¬env.Dead s n m y := by
    have ⟨z, hz, hy⟩ := hΓ.exists_mem_freeVars hy
    exact ha z (.inl hz) (fun hd => hd.left.not_lt (he.old z hz)) y hy
  constructor
  case instances =>
    rintro τ ⟨θ, hθ, rfl⟩
    -- The dead variables are quantified on both sides and get the same types.
    refine ⟨fun x => if env.Dead s n m x then θ x else .var x, fun x hx => ?_, ?_⟩
    · exact if_neg (free (TypeEnv.mem_freeVars_generalize.mp hx).right)
    · refine (Ty.subst_subst t).trans (Ty.subst_congr fun x hx => ?_)
      rw [value hx]
      split
      case isTrue hd => simp [hd]
      case isFalse hd =>
        rw [hθ x (live hx hd)]
        exact Ty.subst_eq_self fun y hy => if_neg (ha x (h.vars x hx) hd y hy)
  case free =>
    intro y hy
    have ⟨hyt, hyΓ⟩ := TypeEnv.mem_freeVars_generalize.mp hy
    have ⟨x, hx, hyx⟩ := Ty.mem_vars_subst.mp hyt
    rw [value hx] at hyx
    split at hyx
    case isTrue hd =>
      obtain rfl : y = x := by simpa using hyx
      exact absurd hd (free hyΓ)
    case isFalse hd => exact ⟨x, live hx hd, hyx⟩

end Sparing

end Expr.Scoped

end HindleyMilner
