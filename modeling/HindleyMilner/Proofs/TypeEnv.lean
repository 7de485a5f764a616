import HindleyMilner.TypeEnv
import HindleyMilner.Proofs.Subst
import HindleyMilner.Proofs.Supply

namespace HindleyMilner

namespace Subst

theorem image_without (s : Subst) (vs : VarSet) (x : TyVar) :
    (s.without vs).image x = if x ∈ vs then .var x else s.image x := by
  simp only [image, get?_without]
  split <;> rfl

end Subst

def AgreeBefore (n : Supply) (R R' : TyVar → Ty) : Prop :=
  ∀ x, x < n.next → R' x = R x

namespace AgreeBefore

variable {n n₁ : Supply} {R R₁ R₂ : TyVar → Ty} {t : Ty}

theorem refl (n : Supply) (R : TyVar → Ty) : AgreeBefore n R R :=
  fun _ _ => rfl

theorem trans (h₁ : AgreeBefore n R R₁) (hn : n.Reaches n₁) (h₂ : AgreeBefore n₁ R₁ R₂) :
    AgreeBefore n R R₂ :=
  fun x hx => (h₂ x (Std.lt_of_lt_of_le hx hn.next_le)).trans (h₁ x hx)

theorem update (n : Supply) (R : TyVar → Ty) (t : Ty) :
    AgreeBefore n R (Function.update R n.next t) :=
  fun _ hx => Function.update_of_ne (Std.ne_of_lt hx) _ _

theorem subst (h : AgreeBefore n R R₁) (ht : ∀ x ∈ t.vars, x < n.next) : t.subst R₁ = t.subst R :=
  Ty.subst_congr fun x hx => h x (ht x hx)

end AgreeBefore

namespace Scheme

variable {σ : Scheme} {S S' : TyVar → Ty} {s : Subst} {t τ : Ty} {x y : TyVar} {n m : Supply}

theorem mem_freeVars : x ∈ σ.freeVars ↔ x ∈ σ.body.vars ∧ x ∉ σ.vars := by
  simp [freeVars]

@[simp]
theorem mem_freeVars_mono : x ∈ (mono t).freeVars ↔ x ∈ t.vars := by
  simp [mem_freeVars, mono]

-- The quantified variables are replaced in any way, the free ones as `S` says.
def InstanceAt (S : TyVar → Ty) (σ : Scheme) (τ : Ty) : Prop :=
  ∃ θ : TyVar → Ty, (∀ x ∈ σ.freeVars, θ x = S x) ∧ σ.body.subst θ = τ

def Instance (σ : Scheme) (τ : Ty) : Prop :=
  σ.InstanceAt .var τ

@[simp]
theorem instanceAt_mono : (mono t).InstanceAt S τ ↔ t.subst S = τ := by
  constructor
  case mp =>
    intro ⟨θ, hθ, ht⟩
    rw [← ht]
    exact Ty.subst_congr fun x hx => (hθ x (by simpa using hx)).symm
  case mpr => exact fun h => ⟨S, fun _ _ => rfl, h⟩

@[simp]
theorem instance_mono : (mono t).Instance τ ↔ t = τ := by
  simp [Instance]

theorem InstanceAt.congr (h : σ.InstanceAt S τ) (hS : ∀ x ∈ σ.freeVars, S x = S' x) :
    σ.InstanceAt S' τ := by
  obtain ⟨θ, hθ, ht⟩ := h
  exact ⟨θ, fun x hx => (hθ x hx).trans (hS x hx), ht⟩

section Apply

def NoCapture (s : Subst) (σ : Scheme) : Prop :=
  ∀ x ∈ σ.freeVars, ∀ y ∈ (s.image x).vars, y ∉ σ.vars

@[simp]
theorem apply_mono : (mono t).apply s = mono (s.apply t) := by
  simp only [mono, apply, Subst.apply, mk.injEq, true_and]
  exact Ty.subst_congr fun x _ => by simp [Subst.image_without]

theorem apply_eq_self (h : ∀ x ∈ σ.freeVars, s.get? x = none) : σ.apply s = σ := by
  have : (s.without σ.vars).apply σ.body = σ.body := by
    refine Subst.apply_eq_self fun x hx => ?_
    rw [Subst.get?_without]
    split
    case isTrue => rfl
    case isFalse hq => exact h x (mem_freeVars.mpr ⟨hx, hq⟩)
  simp [apply, this]

theorem mem_freeVars_of_apply (h : y ∈ (σ.apply s).freeVars) :
    ∃ x ∈ σ.freeVars, y ∈ (s.image x).vars := by
  have ⟨hb, hq⟩ := mem_freeVars.mp h
  have ⟨x, hx, hy⟩ := Ty.mem_vars_subst.mp hb
  rw [Subst.image_without] at hy
  split at hy
  case isTrue hxq => exact absurd (List.mem_singleton.mp (Ty.vars_var x ▸ hy) ▸ hxq) hq
  case isFalse hxq => exact ⟨x, mem_freeVars.mpr ⟨hx, hxq⟩, hy⟩

theorem mem_freeVars_apply (hc : NoCapture s σ) (hx : x ∈ σ.freeVars) (hy : y ∈ (s.image x).vars) :
    y ∈ (σ.apply s).freeVars := by
  have ⟨hb, hq⟩ := mem_freeVars.mp hx
  refine mem_freeVars.mpr ⟨Ty.mem_vars_subst.mpr ⟨x, hb, ?_⟩, hc x hx y hy⟩
  simpa [Subst.image_without, hq] using hy

theorem instanceAt_apply (hs : Subst.Solves S s) (hc : NoCapture s σ) :
    (σ.apply s).InstanceAt S τ ↔ σ.InstanceAt S τ := by
  constructor
  case mp =>
    rintro ⟨θ, hθ, rfl⟩
    refine ⟨fun x => ((s.without σ.vars).image x).subst θ, fun x hx => ?_, (Ty.subst_subst _).symm⟩
    have hq := (mem_freeVars.mp hx).right
    simp only [Subst.image_without, hq, if_false]
    rw [← hs.subst_image x]
    exact Ty.subst_congr fun y hy => hθ y (mem_freeVars_apply hc hx hy)
  case mpr =>
    rintro ⟨θ, hθ, rfl⟩
    -- Quantified variables keep their types, whatever comes in has the type that `S` says.
    refine ⟨fun y => if y ∈ σ.vars then θ y else S y, fun y hy => ?_, ?_⟩
    · exact if_neg (mem_freeVars.mp hy).right
    · refine (Ty.subst_subst _).trans (Ty.subst_congr fun x hx => ?_)
      rw [Subst.image_without]
      split
      case isTrue hq => simp [hq]
      case isFalse hq =>
        have hf := mem_freeVars.mpr ⟨hx, hq⟩
        rw [hθ x hf, ← hs.subst_image x]
        exact Ty.subst_congr fun y hy => by simp [hc x hf y hy]

end Apply

section Instantiate

theorem mem_vars_instantiate (hn : n.Reaches (σ.instantiate n).2)
    (h : y ∈ (σ.instantiate n).1.vars) :
    y ∈ σ.freeVars ∨ n.Taken (σ.instantiate n).2 y := by
  have ⟨x, hx, hy⟩ := Ty.mem_vars_subst.mp h
  split at hy
  case isTrue hq =>
    have : y = n.nth (σ.vars.members.idxOf x) := by simpa using hy
    exact .inr <| this ▸ .nth hn (List.idxOf_lt_length_of_mem hq)
  case isFalse hq =>
    have : y = x := by simpa using hy
    exact .inl <| mem_freeVars.mpr <| this ▸ ⟨hx, hq⟩

theorem instanceAt_instantiate (σ : Scheme) (n : Supply) (S : TyVar → Ty) :
    σ.InstanceAt S ((σ.instantiate n).1.subst S) := by
  refine ⟨_, fun x hx => ?_, (Ty.subst_subst _).symm⟩
  simp [(mem_freeVars.mp hx).right]

-- The fresh variables can stand for any types, so every instance can be had from them.
theorem exists_subst_instantiate (hσ : ∀ x ∈ σ.freeVars, x < n.next)
    (hn : n.Reaches (σ.instantiate n).2) (h : σ.InstanceAt S τ) :
    ∃ S', AgreeBefore n S S' ∧ (σ.instantiate n).1.subst S' = τ := by
  classical
  obtain ⟨θ, hθ, rfl⟩ := h
  let new : TyVar → TyVar → Prop := fun y x => x ∈ σ.vars ∧ y = n.nth (σ.vars.members.idxOf x)
  let S' : TyVar → Ty := fun y => if h : ∃ x, new y x then θ h.choose else S y
  have hout : AgreeBefore n S S' := by
    refine fun y hy => dif_neg ?_
    rintro ⟨x, hx, rfl⟩
    exact (Supply.Taken.nth hn (List.idxOf_lt_length_of_mem hx)).not_lt hy
  have hin : ∀ x ∈ σ.vars, S' (n.nth (σ.vars.members.idxOf x)) = θ x := by
    intro x hx
    have hex : ∃ z, new (n.nth (σ.vars.members.idxOf x)) z := ⟨x, hx, rfl⟩
    have ⟨hz, he⟩ := hex.choose_spec
    have := hn.nth_inj (List.idxOf_lt_length_of_mem hx) (List.idxOf_lt_length_of_mem hz) he
    have hxz : x = hex.choose := (List.idxOf_inj hx).mp this
    exact (dif_pos hex).trans (congrArg θ hxz.symm)
  refine ⟨S', hout, (Ty.subst_subst _).trans (Ty.subst_congr fun x hx => ?_)⟩
  split
  case isTrue hq => simpa using hin x hq
  case isFalse hq =>
    have hf := mem_freeVars.mpr ⟨hx, hq⟩
    simp [hout x (hσ x hf), hθ x hf]

end Instantiate

end Scheme

namespace TypeEnv

variable {env env' Γ : TypeEnv} {k j : String} {σ : Scheme} {s : Subst} {t : Ty} {x : TyVar}
  {r r' : Scheme → Scheme → Prop} {ks : List String} {δ : String → Ty}

@[simp]
theorem get?_declare : (env.declare k σ).get? j = if j = k then some σ else env.get? j := by
  simp [get?, declare]

@[simp]
theorem get?_declareMono :
    (env.declareMono k t).get? j = if j = k then some (.mono t) else env.get? j := by
  simp [declareMono]

@[simp]
theorem get?_remove : (env.remove k).get? j = if j = k then none else env.get? j := by
  simp [get?, remove, SortedMap.get?_erase]

@[simp]
theorem get?_apply : (env.apply s).get? k = (env.get? k).map (·.apply s) := by
  simp [get?, apply]

theorem ext_get? (h : ∀ k, env.get? k = env'.get? k) : env = env' := by
  cases env
  cases env'
  exact congrArg mk (SortedMap.ext_get? h)

theorem mem_names_iff : k ∈ env.names ↔ (env.get? k).isSome :=
  SortedMap.mem_keys_iff

theorem mem_freeVars : x ∈ env.freeVars ↔ ∃ k σ, env.get? k = some σ ∧ x ∈ σ.freeVars := by
  simp only [freeVars, SortedSet.mem_ofList, List.mem_flatMap, Prod.exists]
  exact exists_congr fun k => exists_congr fun σ => and_congr_left' SortedMap.mem_entries_iff

theorem mem_freeVars_of_declare (h : x ∈ (env.declare k σ).freeVars) :
    x ∈ env.freeVars ∨ x ∈ σ.freeVars := by
  have ⟨j, σ', hj, hx⟩ := mem_freeVars.mp h
  rw [get?_declare] at hj
  split at hj
  case isTrue =>
    cases hj
    exact .inr hx
  case isFalse => exact .inl <| mem_freeVars.mpr ⟨j, σ', hj, hx⟩

theorem mem_freeVars_of_remove (h : x ∈ (env.remove k).freeVars) : x ∈ env.freeVars := by
  have ⟨j, σ, hj, hx⟩ := mem_freeVars.mp h
  rw [get?_remove] at hj
  split at hj
  case isTrue => cases hj
  case isFalse => exact mem_freeVars.mpr ⟨j, σ, hj, hx⟩

theorem mem_freeVars_of_apply (h : x ∈ (env.apply s).freeVars) :
    ∃ y ∈ env.freeVars, x ∈ (s.image y).vars := by
  have ⟨k, σ, hk, hx⟩ := mem_freeVars.mp h
  rw [get?_apply] at hk
  obtain ⟨σ, hσ, rfl⟩ := Option.map_eq_some_iff.mp hk
  have ⟨y, hy, hx⟩ := Scheme.mem_freeVars_of_apply hx
  exact ⟨y, mem_freeVars.mpr ⟨k, σ, hσ, hy⟩, hx⟩

@[simp]
theorem mem_freeVars_generalize :
    x ∈ (env.generalize t).freeVars ↔ x ∈ t.vars ∧ x ∈ env.freeVars := by
  simp only [generalize, Scheme.mem_freeVars, SortedSet.mem_diff, Ty.mem_freeVars]
  tauto

theorem mem_freeVars_of_declare_generalize (h : x ∈ (env.declare k (env.generalize t)).freeVars) :
    x ∈ env.freeVars :=
  (mem_freeVars_of_declare h).elim id fun h => (mem_freeVars_generalize.mp h).right

theorem declare_remove : (env.remove k).declare k σ = env.declare k σ := by
  refine ext_get? fun j => ?_
  simp only [get?_declare, get?_remove]
  split <;> rfl

theorem declareMono_remove : (env.remove k).declareMono k t = env.declareMono k t :=
  declare_remove

theorem declare_apply_declareMono :
    ((env.declareMono k t).apply s).declare k σ = ((env.remove k).apply s).declare k σ := by
  refine ext_get? fun j => ?_
  simp only [get?_declare, get?_apply, get?_declareMono, get?_remove]
  split <;> rfl

theorem remove_apply_declareMono :
    ((env.declareMono k t).apply s).remove k = (env.remove k).apply s := by
  refine ext_get? fun j => ?_
  simp only [get?_apply, get?_declareMono, get?_remove]
  split <;> rfl

theorem apply_eq_self (h : ∀ x ∈ env.freeVars, s.get? x = none) : env.apply s = env := by
  refine ext_get? fun k => ?_
  rw [get?_apply]
  cases hk : env.get? k
  case none => rfl
  case some σ =>
    exact congrArg some <| Scheme.apply_eq_self fun x hx => h x (mem_freeVars.mpr ⟨k, σ, hk, hx⟩)

section DeclareAll

def declareAll (env : TypeEnv) (ks : List String) (δ : String → Ty) : TypeEnv :=
  ks.foldl (fun env k => env.declareMono k (δ k)) env

@[simp]
theorem get?_declareAll :
    (env.declareAll ks δ).get? j = if j ∈ ks then some (.mono (δ j)) else env.get? j := by
  induction ks generalizing env
  case nil => simp [declareAll]
  case cons k ks ih =>
    refine Eq.trans (@ih (env.declareMono k (δ k))) ?_
    by_cases hj : j ∈ ks <;> by_cases hk : j = k <;> simp [hj, hk]

theorem declareAll_append {ls : List String} :
    env.declareAll (ks ++ ls) δ = (env.declareAll ks δ).declareAll ls δ :=
  List.foldl_append

theorem declareAll_congr {δ' : String → Ty} (h : ∀ k ∈ ks, δ k = δ' k) :
    env.declareAll ks δ = env.declareAll ks δ' := by
  refine ext_get? fun j => ?_
  simp only [get?_declareAll]
  split
  case isTrue hj => rw [h j hj]
  case isFalse => rfl

theorem declareAll_apply :
    (env.declareAll ks δ).apply s = (env.apply s).declareAll ks fun k => s.apply (δ k) := by
  refine ext_get? fun j => ?_
  simp only [get?_apply, get?_declareAll]
  split <;> simp

theorem mem_freeVars_of_declareAll (h : x ∈ (env.declareAll ks δ).freeVars) :
    x ∈ env.freeVars ∨ ∃ k ∈ ks, x ∈ (δ k).vars := by
  have ⟨j, σ, hj, hx⟩ := mem_freeVars.mp h
  rw [get?_declareAll] at hj
  split at hj
  case isTrue hk =>
    cases hj
    exact .inr ⟨j, hk, by simpa using hx⟩
  case isFalse => exact .inl <| mem_freeVars.mpr ⟨j, σ, hj, hx⟩

end DeclareAll

section Rel

def Rel (r : Scheme → Scheme → Prop) (env Γ : TypeEnv) : Prop :=
  ∀ k, Option.Rel r (env.get? k) (Γ.get? k)

theorem Rel.self (h : ∀ k σ, env.get? k = some σ → r σ σ) : Rel r env env := by
  intro k
  cases hk : env.get? k
  case none => exact .none
  case some σ => exact .some (h k σ hk)

theorem Rel.declare {σ' : Scheme} (h : Rel r env Γ) (hσ : r σ σ') :
    Rel r (env.declare k σ) (Γ.declare k σ') := by
  intro j
  simp only [get?_declare]
  split
  case isTrue => exact .some hσ
  case isFalse => exact h j

theorem Rel.declareAll {δ' : String → Ty} (h : Rel r env Γ)
    (hδ : ∀ k ∈ ks, r (.mono (δ k)) (.mono (δ' k))) :
    Rel r (env.declareAll ks δ) (Γ.declareAll ks δ') := by
  intro j
  simp only [get?_declareAll]
  split
  case isTrue hj => exact .some (hδ j hj)
  case isFalse => exact h j

theorem Rel.remove (h : Rel r env Γ) : Rel r (env.remove k) (Γ.remove k) := by
  intro j
  simp only [get?_remove]
  split
  case isTrue => exact .none
  case isFalse => exact h j

theorem Rel.exists_left (h : Rel r env Γ) {σ' : Scheme} (hk : Γ.get? k = some σ') :
    ∃ σ, env.get? k = some σ ∧ r σ σ' := by
  have hr := h k
  rw [hk] at hr
  cases he : env.get? k <;> rw [he] at hr <;> cases hr
  case some.some hσ => exact ⟨_, rfl, hσ⟩

theorem Rel.exists_right (h : Rel r env Γ) (hk : env.get? k = some σ) :
    ∃ σ', Γ.get? k = some σ' ∧ r σ σ' := by
  have hr := h k
  rw [hk] at hr
  cases he : Γ.get? k <;> rw [he] at hr <;> cases hr
  case some.some hσ => exact ⟨_, rfl, hσ⟩

theorem Rel.map_left (f : Scheme → Scheme) (h : Rel r env Γ)
    (he : ∀ k, env'.get? k = (env.get? k).map f)
    (hf : ∀ k σ σ', env.get? k = some σ → r σ σ' → r' (f σ) σ') : Rel r' env' Γ := by
  intro k
  have hr := h k
  rw [he]
  cases hk : env.get? k <;> cases hk' : Γ.get? k <;> rw [hk, hk'] at hr <;> cases hr
  case none.none => exact .none
  case some.some hσ => exact .some (hf k _ _ hk hσ)

theorem Rel.imp (h : Rel r env Γ)
    (hr : ∀ k σ σ', env.get? k = some σ → r σ σ' → r' σ σ') : Rel r' env Γ :=
  h.map_left id (by simp) hr

theorem Rel.apply (h : Rel r env Γ)
    (hr : ∀ k σ σ', env.get? k = some σ → r σ σ' → r (σ.apply s) σ') : Rel r (env.apply s) Γ :=
  h.map_left (·.apply s) (by simp) hr

end Rel

end TypeEnv

end HindleyMilner
