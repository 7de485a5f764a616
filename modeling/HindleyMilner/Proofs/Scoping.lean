import HindleyMilner.Proofs.Apart
import HindleyMilner.Proofs.Patterns

namespace HindleyMilner

open Infer

namespace Subst

variable {s s₁ s₂ o : Subst} {ss : List Subst} {P Q : TyVar → Prop} {t : Ty}

def Within (P : TyVar → Prop) (s : Subst) : Prop :=
  ∀ x, s.Mentions x → P x

namespace Within

theorem empty : Within P ∅ :=
  fun x hx => absurd hx (not_mentions_empty x)

theorem mono (h : s.Within P) (hPQ : ∀ x, P x → Q x) : s.Within Q :=
  fun x hx => hPQ x (h x hx)

theorem image {x : TyVar} (h : s.Within P) (hx : P x) : ∀ y ∈ (s.image x).vars, P y :=
  fun y hy => (mem_vars_image hy).elim (· ▸ hx) (h y)

theorem apply (h : s.Within P) (ht : ∀ x ∈ t.vars, P x) : ∀ x ∈ (s.apply t).vars, P x :=
  fun x hx => (mem_vars_apply hx).elim (ht x) (h x)

theorem unify {a b : Ty} (h : unify a b = .ok s) (ha : ∀ x ∈ a.vars, P x) (hb : ∀ x ∈ b.vars, P x) :
    s.Within P :=
  fun x hx => (mentions_unify h hx).elim (ha x) (hb x)

theorem compose (h₂ : s₂.Solved) (hw₁ : s₁.Within P) (hw₂ : s₂.Within P)
    (h : s₁.compose s₂ = .ok o) : o.Within P :=
  fun x hx => (compose_join s₁ h₂ |>.mentions h hx).elim (hw₁ x) (hw₂ x)

theorem composeAll (hss : ∀ p ∈ ss, p.Solved) (hw : ∀ p ∈ ss, p.Within P)
    (h : composeAll ss = .ok o) : o.Within P :=
  fun x hx =>
    have ⟨p, hp, hx⟩ := composeAll_join hss |>.mentions h hx
    hw p hp x hx

end Within

end Subst

namespace TypeEnv

variable {env : TypeEnv} {scope : List String} {n n₁ m m₁ : Supply} {s : Subst} {k : String}
  {σ : Scheme} {t : Ty} {x y : TyVar} {ks : List String} {δ : String → Ty} {P : TyVar → Prop}

def Known (env : TypeEnv) (n m : Supply) (x : TyVar) : Prop :=
  x ∈ env.freeVars ∨ n.Taken m x

namespace Known

theorem mono (hn : n.Reaches n₁) (hm : m₁.Reaches m) (h : env.Known n₁ m₁ x) : env.Known n m x :=
  h.imp_right fun h => (h.mono_left hn).mono_right hm

theorem mono_left (hn : n.Reaches n₁) (h : env.Known n₁ m x) : env.Known n m x :=
  h.mono hn (.refl m)

theorem mono_right (hm : m₁.Reaches m) (h : env.Known n m₁ x) : env.Known n m x :=
  h.mono (.refl n) hm

theorem apply (hs : s.Within (env.Known n n₁)) (hn : n.Reaches n₁) (hm : n₁.Reaches m)
    (h : (env.apply s).Known n₁ m x) : env.Known n m x := by
  cases h
  case inl h =>
    have ⟨y, hy, hx⟩ := mem_freeVars_of_apply h
    exact hs.image (.inl hy) x hx |>.mono_right hm
  case inr h => exact .inr (h.mono_left hn)

theorem declareAll (hδ : ∀ k ∈ ks, ∀ x ∈ (δ k).vars, n.Taken n₁ x) (hn : n.Reaches n₁)
    (hm : n₁.Reaches m) (h : (env.declareAll ks δ).Known n₁ m x) : env.Known n m x := by
  cases h
  case inl h =>
    obtain h | ⟨k, hk, hx⟩ := mem_freeVars_of_declareAll h
    · exact .inl h
    · exact .inr ((hδ k hk x hx).mono_right hm)
  case inr h => exact .inr (h.mono_left hn)

theorem declareMono (hn : n.Reaches (n.drop 1)) (hm : (n.drop 1).Reaches m)
    (h : (env.declareMono k (.var n.next)).Known (n.drop 1) m x) : env.Known n m x :=
  have h : (env.declareAll [k] fun _ => .var n.next).Known (n.drop 1) m x := h
  declareAll (by simpa using .next hn) hn hm h

end Known

-- The free variables of `env` are in `P`, and the quantified ones that stand beside them are not:
-- so putting variables of `P` for free ones captures none.
structure Safe (P : TyVar → Prop) (n : Supply) (env : TypeEnv) : Prop where
  free : ∀ x ∈ env.freeVars, P x
  apart : ∀ k σ, env.get? k = some σ → ∀ x ∈ σ.freeVars, ∀ q ∈ σ.vars, q < n.next ∧ ¬P q

namespace Safe

theorem noCapture (h : env.Safe P n) (hs : s.Within P) (hk : env.get? k = some σ) :
    σ.NoCapture s := by
  intro x hx y hy hq
  exact (h.apart k σ hk x hx y hq).right <|
    hs.image (h.free x (mem_freeVars.mpr ⟨k, σ, hk, hx⟩)) y hy

theorem apply (h : env.Safe P n) (hs : s.Within P) : (env.apply s).Safe P n := by
  constructor
  case free =>
    intro x hx
    have ⟨y, hy, hx⟩ := mem_freeVars_of_apply hx
    exact hs.image (h.free y hy) x hx
  case apart =>
    intro k σ hk x hx q hq
    rw [get?_apply] at hk
    obtain ⟨σ, hσ, rfl⟩ := Option.map_eq_some_iff.mp hk
    have ⟨z, hz, _⟩ := Scheme.mem_freeVars_of_apply hx
    exact h.apart k σ hσ z hz q hq

theorem declareAll (h : env.Safe P n) (hδ : ∀ k ∈ ks, ∀ x ∈ (δ k).vars, P x) :
    (env.declareAll ks δ).Safe P n := by
  constructor
  case free =>
    intro x hx
    obtain h' | ⟨k, hk, hx⟩ := mem_freeVars_of_declareAll hx
    · exact h.free x h'
    · exact hδ k hk x hx
  case apart =>
    intro k σ hk x hx q hq
    rw [get?_declareAll] at hk
    split at hk
    case isTrue =>
      cases hk
      exact absurd hq (SortedSet.not_mem_empty q)
    case isFalse => exact h.apart k σ hk x hx q hq

end Safe

theorem names_apply (h : ∀ k ∈ env.names, k ∈ scope) : ∀ k ∈ (env.apply s).names, k ∈ scope :=
  fun k hk => h k <| mem_names_iff.mpr <| by simpa using mem_names_iff.mp hk

theorem names_declareAll (h : ∀ k ∈ env.names, k ∈ scope) :
    ∀ k ∈ (env.declareAll ks δ).names, k ∈ ks ++ scope := by
  intro k hk
  have := mem_names_iff.mp hk
  rw [get?_declareAll] at this
  split at this
  case isTrue hk => exact List.mem_append_left _ hk
  case isFalse => exact List.mem_append_right _ (h k (mem_names_iff.mpr this))

theorem names_declare (h : ∀ k ∈ env.names, k ∈ scope) :
    ∀ j ∈ (env.declare k σ).names, j ∈ k :: scope := by
  intro j hj
  have := mem_names_iff.mp hj
  rw [get?_declare] at this
  split at this
  case isTrue hj => exact hj ▸ List.mem_cons_self
  case isFalse => exact List.mem_cons_of_mem _ (h j (mem_names_iff.mpr this))

structure Prior (scope : List String) (env : TypeEnv) (n : Supply) : Prop where
  names : ∀ k ∈ env.names, k ∈ scope
  old : ∀ x ∈ env.freeVars, x < n.next

namespace Prior

theorem get?_of_new {p : Pattern} (h : env.Prior scope n) (hp : p.New scope) (k : String)
    (hk : k ∈ p.names) : env.get? k = none := by
  by_contra hn
  exact hp k hk (h.names k (mem_names_iff.mpr (Option.isSome_iff_ne_none.mpr hn)))

theorem mono (h : env.Prior scope n) (hr : n.Reaches m) : env.Prior scope m :=
  ⟨h.names, fun x hx => hr.lt_next (h.old x hx)⟩

theorem lt_of_known (h : env.Prior scope n) (hr : n.Reaches m) (hx : env.Known n m x) :
    x < m.next :=
  hx.elim (fun hx => hr.lt_next (h.old x hx)) And.right

theorem apply (h : env.Prior scope n) (hr : n.Reaches m) (hs : s.Within (· < m.next)) :
    (env.apply s).Prior scope m := by
  refine ⟨names_apply h.names, fun x hx => ?_⟩
  obtain ⟨y, hy, hx⟩ := mem_freeVars_of_apply hx
  exact hs.image (hr.lt_next (h.old y hy)) x hx

theorem declareAll (h : env.Prior scope n) (hr : n.Reaches m)
    (hδ : ∀ k ∈ ks, ∀ x ∈ (δ k).vars, x < m.next) :
    (env.declareAll ks δ).Prior (ks ++ scope) m := by
  refine ⟨names_declareAll h.names, fun x hx => ?_⟩
  obtain h' | ⟨k, hk, hx⟩ := mem_freeVars_of_declareAll hx
  · exact hr.lt_next (h.old x h')
  · exact hδ k hk x hx

theorem declareMono (h : env.Prior scope n) (hr : n.Reaches (n.drop 1)) :
    (env.declareMono k (.var n.next)).Prior (k :: scope) (n.drop 1) :=
  show (env.declareAll [k] fun _ => .var n.next).Prior ([k] ++ scope) (n.drop 1) from
    h.declareAll hr (by simpa using (Supply.Taken.next hr).right)

theorem remove (h : env.Prior scope n) : (env.remove k).Prior scope n := by
  refine ⟨fun j hj => h.names j ?_, fun x hx => h.old x (mem_freeVars_of_remove hx)⟩
  rw [mem_names_iff, get?_remove] at hj
  split at hj
  case isTrue => cases hj
  case isFalse => exact mem_names_iff.mpr hj

theorem declare_generalize (h : env.Prior scope n) :
    (env.declare k (env.generalize t)).Prior (k :: scope) n :=
  ⟨names_declare h.names, fun x hx => h.old x (mem_freeVars_of_declare_generalize hx)⟩

end Prior

-- `env` is fit for a run from `n`: its free variables come before `n`, the quantified ones beside
-- them as well, and these are not free anywhere in `env`. All names of `env` are in scope.
structure Ready (scope : List String) (env : TypeEnv) (n : Supply) : Prop where
  names : ∀ k ∈ env.names, k ∈ scope
  old : ∀ x ∈ env.freeVars, x < n.next
  apart : ∀ k σ, env.get? k = some σ → ∀ x ∈ σ.freeVars, ∀ q ∈ σ.vars, q < n.next ∧ q ∉ env.freeVars

theorem Safe.ready (h : env.Safe P n) (hk : ∀ k ∈ env.names, k ∈ scope)
    (hP : ∀ x, P x → x < n.next) : env.Ready scope n where
  names := hk
  old x hx := hP x (h.free x hx)
  apart k σ hk x hx q hq :=
    have ⟨hlt, hq⟩ := h.apart k σ hk x hx q hq
    ⟨hlt, fun hf => hq (h.free q hf)⟩

namespace Ready

theorem prior (h : env.Ready scope n) : env.Prior scope n :=
  ⟨h.names, h.old⟩

theorem newIn {p : Pattern} (h : env.Ready scope n) (hp : p.Fresh scope) : p.NewIn env :=
  hp.newIn h.names

theorem mono (h : env.Ready scope n) (hr : n.Reaches m) : env.Ready scope m where
  names := h.names
  old x hx := Std.lt_of_lt_of_le (h.old x hx) hr.next_le
  apart k σ hk x hx q hq :=
    have ⟨hlt, hq⟩ := h.apart k σ hk x hx q hq
    ⟨Std.lt_of_lt_of_le hlt hr.next_le, hq⟩

theorem lt_of_known (h : env.Ready scope n) (hr : n.Reaches m) (hx : env.Known n m x) :
    x < m.next :=
  h.prior.lt_of_known hr hx

theorem safe (h : env.Ready scope n) (hr : n.Reaches m) : env.Safe (env.Known n m) m where
  free _ := .inl
  apart k σ hk x hx q hq :=
    have ⟨hlt, hq⟩ := h.apart k σ hk x hx q hq
    ⟨Std.lt_of_lt_of_le hlt hr.next_le, fun hn => hn.elim hq fun ht => ht.not_lt hlt⟩

theorem noCapture (h : env.Ready scope n) (hr : n.Reaches m) (hs : s.Within (env.Known n m))
    (hk : env.get? k = some σ) : σ.NoCapture s :=
  (h.safe hr).noCapture hs hk

theorem mem_freeVars_apply (h : env.Ready scope n) (hr : n.Reaches m)
    (hs : s.Within (env.Known n m)) (hx : x ∈ env.freeVars) (hy : y ∈ (s.image x).vars) :
    y ∈ (env.apply s).freeVars := by
  have ⟨k, σ, hk, hx⟩ := mem_freeVars.mp hx
  refine mem_freeVars.mpr ⟨k, σ.apply s, by simp [hk], ?_⟩
  exact Scheme.mem_freeVars_apply (h.noCapture hr hs hk) hx hy

theorem apply (h : env.Ready scope n) (hs : s.Within (env.Known n m)) (hr : n.Reaches m) :
    (env.apply s).Ready scope m :=
  (h.safe hr).apply hs |>.ready (names_apply h.names) fun _ => h.lt_of_known hr

theorem declareAll (h : env.Ready scope n) (hr : n.Reaches m)
    (hδ : ∀ k ∈ ks, ∀ x ∈ (δ k).vars, n.Taken m x) :
    (env.declareAll ks δ).Ready (ks ++ scope) m :=
  (h.safe hr).declareAll (fun k hk x hx => .inr (hδ k hk x hx))
    |>.ready (names_declareAll h.names) fun _ => h.lt_of_known hr

theorem declareMono (h : env.Ready scope n) (hr : n.Reaches (n.drop 1)) :
    (env.declareMono k (.var n.next)).Ready (k :: scope) (n.drop 1) :=
  show (env.declareAll [k] fun _ => .var n.next).Ready ([k] ++ scope) (n.drop 1) from
    h.declareAll hr (by simpa using .next hr)

theorem remove (h : env.Ready scope n) : (env.remove k).Ready scope n := by
  have get? {j : String} {σ : Scheme} (hj : (env.remove k).get? j = some σ) : env.get? j = some σ := by
    rw [get?_remove] at hj
    split at hj
    case isTrue => cases hj
    case isFalse => exact hj
  constructor
  case names =>
    intro j hj
    have ⟨σ, hσ⟩ := Option.isSome_iff_exists.mp (mem_names_iff.mp hj)
    exact h.names j (mem_names_iff.mpr (by simp [get? hσ]))
  case old => exact fun x hx => h.old x (mem_freeVars_of_remove hx)
  case apart =>
    intro j σ hj x hx q hq
    have ⟨hlt, hq⟩ := h.apart j σ (get? hj) x hx q hq
    exact ⟨hlt, fun hf => hq (mem_freeVars_of_remove hf)⟩

theorem declare_generalize (h : env.Ready scope n) (ht : ∀ x ∈ t.vars, x < n.next) :
    (env.declare k (env.generalize t)).Ready (k :: scope) n := by
  constructor
  case names => exact names_declare h.names
  case old => exact fun x hx => h.old x (mem_freeVars_of_declare_generalize hx)
  case apart =>
    intro j σ hj x hx q hq
    rw [get?_declare] at hj
    split at hj
    case isTrue =>
      cases hj
      obtain ⟨hqt, hqe⟩ : q ∈ t.vars ∧ q ∉ env.freeVars := by simpa [generalize] using hq
      exact ⟨ht q hqt, fun hf => hqe (mem_freeVars_of_declare_generalize hf)⟩
    case isFalse =>
      obtain ⟨hlt, hq⟩ := h.apart j σ hj x hx q hq
      exact ⟨hlt, fun hf => hq (mem_freeVars_of_declare_generalize hf)⟩

end Ready

end TypeEnv

namespace Expr

variable {env env' : TypeEnv} {scope : List String} {n n₁ m m₁ : Supply} {s s₁ s₂ : Subst}
  {ss : List Subst} {t : Ty} {ts : List Ty} {k : String} {x : TyVar} {P : TyVar → Prop}

-- What a run from `n` to `m` in `env` comes to: it speaks of variables that it knows, and its
-- substitution has nothing to say of its type any more.
structure Scoped (env : TypeEnv) (n m : Supply) (s : Subst) (t : Ty) : Prop where
  solved : s.Solved
  within : s.Within (env.Known n m)
  vars : ∀ x ∈ t.vars, env.Known n m x
  normal : s.apply t = t

namespace Scoped

theorem empty (ht : ∀ x ∈ t.vars, env.Known n m x) : Scoped env n m ∅ t :=
  ⟨.empty, .empty, ht, by simp⟩

theorem part (h : Scoped env n m s t) (hP : ∀ x, env.Known n m x → P x) : s.Solved ∧ s.Within P :=
  ⟨h.solved, h.within.mono hP⟩

theorem prior (h : Scoped env n m s t) (he : env.Prior scope n) (hr : n.Reaches m) :
    (env.apply s).Prior scope m :=
  he.apply hr (h.within.mono fun _ => he.lt_of_known hr)

theorem composeAll (hss : ∀ p ∈ ss, p.Solved ∧ p.Within (env.Known n m))
    (h : Subst.composeAll ss = .ok s) (ht : ∀ x ∈ t.vars, env.Known n m x) :
    Scoped env n m s (s.apply t) := by
  have solved : s.Solved := Subst.composeAll_join (fun p hp => (hss p hp).left) |>.solved h
  have within : s.Within (env.Known n m) :=
    .composeAll (fun p hp => (hss p hp).left) (fun p hp => (hss p hp).right) h
  exact ⟨solved, within, within.apply ht, solved.apply_apply t⟩

theorem within_compose {n₀ : Supply} {s₀ : Subst} (h : Scoped (env.apply s₀) n m s₁ t)
    (h₀ : s₀.Within (env.Known n₀ n)) (hn : n₀.Reaches n) (hm : n.Reaches m)
    (hc : s₀.compose s₁ = .ok s) : s.Within (env.Known n₀ m) :=
  .compose h.solved (h₀.mono fun _ => .mono_right hm) (h.within.mono fun _ => .apply h₀ hn hm) hc

end Scoped

theorem part_unify {a b : Ty} (h : unify a b = .ok s) (ha : ∀ x ∈ a.vars, P x)
    (hb : ∀ x ∈ b.vars, P x) : s.Solved ∧ s.Within P :=
  ⟨solved_of_unify h, .unify h ha hb⟩

-- What a binding of `k` comes to. Whatever is free in the new environment has come in for a
-- variable that was free in the old one.
structure Binds (scope : List String) (env : TypeEnv) (k : String) (n m : Supply) (s : Subst)
    (env' : TypeEnv) : Prop where
  solved : s.Solved
  within : s.Within (env.Known n m)
  prior : env'.Prior (k :: scope) m
  ready : env.Ready scope n → env'.Ready (k :: scope) m
  free : ∀ x ∈ env'.freeVars, ∃ y ∈ env.freeVars, x ∈ (s.image y).vars

namespace Binds

theorem known (hb : Binds scope env k n n₁ s env') (hn : n.Reaches n₁) (hm : n₁.Reaches m)
    (hx : env'.Known n₁ m x) : env.Known n m x := by
  cases hx
  case inl hx =>
    have ⟨y, hy, hx⟩ := hb.free x hx
    exact hb.within.image (.inl hy) x hx |>.mono_right hm
  case inr hx => exact .inr (hx.mono_left hn)

theorem get?_of_known (hb : Binds scope env k n n₁ s env') (he : env.Prior scope n)
    (hn : n.Reaches n₁) (hx : env'.Known n₁ m x) : s.get? x = none := by
  cases hx
  case inl hx =>
    have ⟨y, _, hx⟩ := hb.free x hx
    exact hb.solved.get?_of_mem_image hx
  case inr hx =>
    refine Subst.get?_of_not_mentions fun hs => ?_
    cases hb.within x hs
    case inl h => exact hx.not_lt (Std.lt_of_lt_of_le (he.old x h) hn.next_le)
    case inr h => exact h.not_taken hx

theorem body (hb : Binds scope env k n n₁ s₁ env') (he : env.Prior scope n) (hn : n.Reaches n₁)
    (hm : n₁.Reaches m) (h : Scoped env' n₁ m s₂ t) (hc : s₁.compose s₂ = .ok s) :
    Scoped env n m s t := by
  have free : ∀ x, env'.Known n₁ m x → s₁.get? x = none := fun x => hb.get?_of_known he hn
  have known : ∀ x, env'.Known n₁ m x → env.Known n m x := fun x => hb.known hn hm
  constructor
  case solved => exact Subst.compose_join s₁ h.solved |>.solved hc
  case within =>
    exact .compose h.solved (hb.within.mono fun _ => .mono_right hm) (h.within.mono known) hc
  case vars => exact fun x hx => known x (h.vars x hx)
  case normal =>
    have hs₁ : s₁.apply t = t := Subst.apply_eq_self fun x hx => free x (h.vars x hx)
    rw [Subst.apply_compose hb.solved h.solved (fun x hx => free x (h.within x hx)) hc, hs₁, h.normal]

end Binds

theorem Scoped.binds (h : Scoped env n m s t) (he : env.Prior scope n) (hr : n.Reaches m) :
    Binds scope env k n m s ((env.apply s).declare k ((env.apply s).generalize t)) where
  solved := h.solved
  within := h.within
  prior := (h.prior he hr).declare_generalize
  ready ready := (ready.apply h.within hr).declare_generalize fun x hx =>
    he.lt_of_known hr (h.vars x hx)
  free _ hx := TypeEnv.mem_freeVars_of_apply (TypeEnv.mem_freeVars_of_declare_generalize hx)

theorem Scoped.recursive (hn : n.Reaches (n.drop 1)) (hm : (n.drop 1).Reaches m)
    (h : Scoped (env.declareMono k (.var n.next)) (n.drop 1) m s₁ t)
    (hu : unify (s₁.image n.next) t = .ok s₂) (hc : s₁.compose s₂ = .ok s) :
    Scoped (env.remove k) n m s (s.apply t) := by
  have known : ∀ x, (env.declareMono k (.var n.next)).Known (n.drop 1) m x →
      (env.remove k).Known n m x := by
    rw [← TypeEnv.declareMono_remove]
    exact fun x => .declareMono hn hm
  have self : (env.declareMono k (.var n.next)).Known (n.drop 1) m n.next :=
    .inl <| TypeEnv.mem_freeVars.mpr ⟨k, .mono (.var n.next), by simp, by simp⟩
  have h₂ : s₂.Solved ∧ s₂.Within ((env.remove k).Known n m) :=
    part_unify hu (fun x hx => known x (h.within.image self x hx)) fun x hx => known x (h.vars x hx)
  have solved : s.Solved := Subst.compose_join s₁ h₂.left |>.solved hc
  have within : s.Within ((env.remove k).Known n m) :=
    .compose h₂.left (h.within.mono known) h₂.right hc
  exact ⟨solved, within, within.apply fun x hx => known x (h.vars x hx), solved.apply_apply t⟩

theorem Binds.of_remove (h : Binds scope (env.remove k) k n m s env') :
    Binds scope env k n m s env' where
  solved := h.solved
  within := h.within.mono fun _ => Or.imp_left TypeEnv.mem_freeVars_of_remove
  prior := h.prior
  ready he := h.ready he.remove
  free x hx :=
    have ⟨y, hy, hx⟩ := h.free x hx
    ⟨y, TypeEnv.mem_freeVars_of_remove hy, hx⟩

def RunsScoped (e : Expr) : Prop :=
  ∀ {scope env n s t m}, Runs (e.infer env) n (s, t) m → env.Prior scope n → e.PatternsNew scope →
    Scoped env n m s t

theorem binds_binding {v : Expr} (ih : RunsScoped v)
    (hr : Runs (binding env k v.infer) n (s, env') m) (he : env.Prior scope n)
    (hp : v.PatternsNew scope) : Binds scope env k n m s env' := by
  obtain ⟨t, rv, rfl⟩ := runs_binding hr
  exact (ih rv he hp).binds he rv.reaches

theorem binds_recBinding {v : Expr} (ih : RunsScoped v)
    (hr : Runs (recBinding env k v v.infer) n (s, env') m) (he : env.Prior scope n)
    (hp : v.PatternsNew (k :: scope)) : Binds scope env k n m s env' := by
  obtain ⟨s₁, t, s₂, hn, rv, hu, hc, rfl⟩ := runs_recBinding v.grows_infer hr
  have hv := Scoped.recursive hn rv.reaches (ih rv (he.declareMono hn) hp) hu hc
  exact (hv.binds he.remove hr.reaches).of_remove

theorem scoped_lam {p : Pattern} {body : Expr} (ih : RunsScoped body) :
    RunsScoped (lam p body) := by
  intro scope env n s t m hr he hp
  obtain ⟨env', pt, n₁, bt, r₁, r₂, rfl⟩ := runs_lam hr
  have ⟨δ, hb, taken⟩ := Pattern.exists_declares r₁ (he.get?_of_new hp.left) he.old
  obtain rfl := hb.env_eq
  have he' := he.declareAll r₁.reaches fun k hk x hx => (hb.taken k hk x hx).right
  have h := ih r₂ he' hp.right
  have known : ∀ x, (env.declareAll p.names δ).Known n₁ m x → env.Known n m x :=
    fun x => .declareAll hb.taken r₁.reaches r₂.reaches
  have within := h.within.mono known
  refine ⟨h.solved, within, within.apply fun x hx => ?_, h.solved.apply_apply _⟩
  simp only [Ty.vars_arrow, List.mem_append] at hx
  exact hx.elim (fun hx => .inr ((taken x hx).mono_right r₂.reaches)) fun hx =>
    known x (h.vars x hx)

theorem scoped_binop {op : Option Op} {l r : Expr} (ihl : RunsScoped l) (ihr : RunsScoped r) :
    RunsScoped (binop op l r) := by
  intro scope env n s t m hr he hp
  obtain ⟨o, s₁, lt, n₁, s₂, rt, ss, rfl, r₁, r₂, ho, hc⟩ := runs_binop hr
  have h₁ := ihl r₁ he hp.left
  have h₂ := ihr r₂ (he.mono r₁.reaches) hp.right
  have known₁ : ∀ x, env.Known n n₁ x → env.Known n m x := fun x => .mono_right r₂.reaches
  have known₂ : ∀ x, env.Known n₁ m x → env.Known n m x := fun x => .mono_left r₁.reaches
  have left : ∀ x ∈ lt.vars, env.Known n m x := fun x hx => known₁ x (h₁.vars x hx)
  have right : ∀ x ∈ rt.vars, env.Known n m x := fun x hx => known₂ x (h₂.vars x hx)
  have parts : ∀ p ∈ ss, p.Solved ∧ p.Within (env.Known n m) := by
    cases ho <;> simp only [List.forall_mem_cons]
    case arithmetic u₁ u₂ =>
      exact ⟨part_unify u₁ left (by simp), part_unify u₂ right (by simp), by simp⟩
    case relation u => exact ⟨part_unify u left right, by simp⟩
  have h := Scoped.composeAll (t := t) (List.forall_mem_cons.mpr ⟨h₁.part known₁,
    List.forall_mem_cons.mpr ⟨h₂.part known₂, parts⟩⟩) hc (by cases ho <;> simp)
  cases ho <;> simpa using h

theorem scoped_cons {hd tl : Expr} (ihh : RunsScoped hd) (iht : RunsScoped tl) :
    RunsScoped (cons hd tl) := by
  intro scope env n s t m hr he hp
  obtain ⟨s₁, ht, n₁, s₂, tt, s₃, r₁, r₂, hu, hc, rfl⟩ := runs_cons hr
  have h₁ := ihh r₁ he hp.left
  have h₂ := iht r₂ (h₁.prior he r₁.reaches) hp.right
  have known₁ : ∀ x, env.Known n n₁ x → env.Known n m x := fun x => .mono_right r₂.reaches
  have known₂ : ∀ x, (env.apply s₁).Known n₁ m x → env.Known n m x :=
    fun x => .apply h₁.within r₁.reaches r₂.reaches
  have tail : ∀ x ∈ tt.vars, env.Known n m x := fun x hx => known₂ x (h₂.vars x hx)
  have h₃ : s₃.Solved ∧ s₃.Within (env.Known n m) :=
    part_unify hu (fun x hx => known₁ x (h₁.vars x (by simpa using hx))) tail
  refine .composeAll ?_ hc tail
  simp only [List.forall_mem_cons]
  exact ⟨h₁.part known₁, h₂.part known₂, h₃, by simp⟩

theorem scoped_cond {c y f : Expr} (ihc : RunsScoped c) (ihy : RunsScoped y) (ihf : RunsScoped f) :
    RunsScoped (cond c y f) := by
  intro scope env n s t m hr he hp
  obtain ⟨s₁, ct, n₁, s₂, yt, n₂, s₃, ft, s₄, s₅, r₁, r₂, r₃, hu, hv, hc, rfl⟩ := runs_cond hr
  obtain ⟨hp₁, hp₂, hp₃⟩ := hp
  have hn₂ := r₁.reaches.trans r₂.reaches
  have h₁ := ihc r₁ he hp₁
  have h₂ := ihy r₂ (he.mono r₁.reaches) hp₂
  have h₃ := ihf r₃ (he.mono hn₂) hp₃
  have known₁ : ∀ x, env.Known n n₁ x → env.Known n m x :=
    fun x => .mono_right (r₂.reaches.trans r₃.reaches)
  have known₂ : ∀ x, env.Known n₁ n₂ x → env.Known n m x := fun x => .mono r₁.reaches r₃.reaches
  have known₃ : ∀ x, env.Known n₂ m x → env.Known n m x := fun x => .mono_left hn₂
  have no : ∀ x ∈ ft.vars, env.Known n m x := fun x hx => known₃ x (h₃.vars x hx)
  have h₄ : s₄.Solved ∧ s₄.Within (env.Known n m) :=
    part_unify hu (fun x hx => known₁ x (h₁.vars x hx)) (by simp)
  have h₅ : s₅.Solved ∧ s₅.Within (env.Known n m) :=
    part_unify hv (fun x hx => known₂ x (h₂.vars x hx)) no
  refine .composeAll ?_ hc no
  simp only [List.forall_mem_cons]
  exact ⟨h₁.part known₁, h₂.part known₂, h₃.part known₃, h₄, h₅, by simp⟩

theorem scoped_app {f a : Expr} (ihf : RunsScoped f) (iha : RunsScoped a) :
    RunsScoped (app f a) := by
  intro scope env n s t m hr he hp
  obtain ⟨s₁, ft, n₁, s₂, aty, n₂, s₃, r₁, r₂, hn, rfl, hu, hc, rfl⟩ := runs_app hr
  have h₁ := ihf r₁ he hp.left
  have h₂ := iha r₂ (h₁.prior he r₁.reaches) hp.right
  have known₁ : ∀ x, env.Known n n₁ x → env.Known n (n₂.drop 1) x :=
    fun x => .mono_right (r₂.reaches.trans hn)
  have known₂ : ∀ x, (env.apply s₁).Known n₁ n₂ x → env.Known n (n₂.drop 1) x :=
    fun x hx => .mono_right hn (.apply h₁.within r₁.reaches r₂.reaches hx)
  have ret : env.Known n (n₂.drop 1) n₂.next :=
    .inr ((Supply.Taken.next hn).mono_left (r₁.reaches.trans r₂.reaches))
  have h₃ : s₃.Solved ∧ s₃.Within (env.Known n (n₂.drop 1)) := by
    refine part_unify hu ?_ fun x hx => ?_
    · exact (h₂.part known₂).right.apply fun x hx => known₁ x (h₁.vars x hx)
    · simp only [Ty.vars_arrow, Ty.vars_var, List.mem_append, List.mem_singleton] at hx
      exact hx.elim (fun hx => known₂ x (h₂.vars x hx)) (· ▸ ret)
  rw [← Subst.apply_var]
  refine .composeAll ?_ hc (by simpa)
  simp only [List.forall_mem_cons]
  exact ⟨h₁.part known₁, h₂.part known₂, h₃, by simp⟩

theorem scoped_letIn {v body : Expr} (ihv : RunsScoped v) (ihb : RunsScoped body) :
    RunsScoped (letIn k v body) := by
  intro scope env n s t m hr he hp
  obtain ⟨s₁, env', n₁, s₂, r₁, r₂, hc⟩ := runs_letIn hr
  have hb := binds_binding ihv r₁ he hp.left
  exact hb.body he r₁.reaches r₂.reaches (ihb r₂ hb.prior hp.right) hc

theorem scoped_letRec {v body : Expr} (ihv : RunsScoped v) (ihb : RunsScoped body) :
    RunsScoped (letRec k v body) := by
  intro scope env n s t m hr he hp
  obtain ⟨s₁, env', n₁, s₂, r₁, r₂, hc⟩ := runs_letRec hr
  have hb := binds_recBinding ihv r₁ he hp.left
  exact hb.body he r₁.reaches r₂.reaches (ihb r₂ hb.prior hp.right) hc

section Loops

variable {n₀ : Supply} {s₀ : Subst} {e : Expr}

theorem scoped_inferElems {es : List Expr} (ih : ∀ a ∈ es, RunsScoped a)
    (hr : Runs (inferElems e env s₀ es) n (s, ts) m) (he : env.Prior scope n₀) (hn : n₀.Reaches n)
    (h₀ : s₀.Solved ∧ s₀.Within (env.Known n₀ n)) (hp : AllEachPattern Pattern.New scope es) :
    (s.Solved ∧ s.Within (env.Known n₀ m)) ∧ ∀ t ∈ ts, ∀ x ∈ t.vars, env.Known n₀ m x := by
  induction es generalizing s₀ n ts
  case nil =>
    obtain ⟨rfl, rfl, rfl⟩ := runs_inferElems_nil hr
    exact ⟨h₀, by simp⟩
  case cons a es ihs =>
    obtain ⟨s₁, t, n₁, s₂, ts', r₁, hc, r₂, rfl⟩ := runs_inferElems_cons hr
    have ⟨iha, ih⟩ := List.forall_mem_cons.mp ih
    have he₀ := he.apply hn (h₀.right.mono fun _ => he.lt_of_known hn)
    have h₁ := iha r₁ he₀ hp.left
    have h₂ : s₂.Solved ∧ s₂.Within (env.Known n₀ n₁) :=
      ⟨Subst.compose_join s₀ h₁.solved |>.solved hc, h₁.within_compose h₀.right hn r₁.reaches hc⟩
    have ⟨hs, hts⟩ := ihs ih r₂ (hn.trans r₁.reaches) h₂ hp.right
    refine ⟨hs, List.forall_mem_cons.mpr ⟨fun x hx => ?_, hts⟩⟩
    exact .mono_right r₂.reaches <| .apply h₀.right hn r₁.reaches (h₁.vars x hx)

-- The pattern of a branch is joined with the matched value's type. Its variables may have come to
-- share their types with all that was known before.
structure PatternScoped (scope : List String) (env : TypeEnv) (n₀ n₁ : Supply) (penv : TypeEnv)
    (s₁ : Subst) : Prop where
  part : s₁.Solved ∧ s₁.Within (env.Known n₀ n₁)
  free : ∀ x ∈ (penv.apply s₁).freeVars, env.Known n₀ n₁ x
  prior : (penv.apply s₁).Prior scope n₁

theorem scoped_pattern {p : Pattern} {penv : TypeEnv} {vt pt : Ty} {δ : String → Ty}
    (he : env.Prior scope n₀) (hn : n₀.Reaches n) (h₀ : s₀.Within (env.Known n₀ n))
    (hvt : ∀ x ∈ vt.vars, env.Known n₀ n x) (hb : Pattern.Declares p.names env n penv n₁ δ)
    (hpt : ∀ x ∈ pt.vars, n.Taken n₁ x) (hn₁ : n.Reaches n₁)
    (hu : unify pt (s₀.apply vt) = .ok s₁) :
    PatternScoped (p.names ++ scope) env n₀ n₁ penv s₁ := by
  obtain rfl := hb.env_eq
  have hr := hn.trans hn₁
  have part : s₁.Solved ∧ s₁.Within (env.Known n₀ n₁) :=
    part_unify hu (fun x hx => .inr ((hpt x hx).mono_left hn)) fun x hx =>
      h₀.apply hvt x hx |>.mono_right hn₁
  have free : ∀ x ∈ ((env.declareAll p.names δ).apply s₁).freeVars, env.Known n₀ n₁ x := by
    intro x hx
    obtain ⟨y, hy, hx⟩ := TypeEnv.mem_freeVars_of_apply hx
    refine part.right.image ?_ x hx
    obtain hy | ⟨k, hk, hy⟩ := TypeEnv.mem_freeVars_of_declareAll hy
    · exact .inl hy
    · exact .inr ((hb.taken k hk y hy).mono_left hn)
  exact ⟨part, free, TypeEnv.names_apply (TypeEnv.names_declareAll he.names), fun x hx =>
    he.lt_of_known hr (free x hx)⟩

theorem safe_pattern {p : Pattern} {penv : TypeEnv} {δ : String → Ty} (he : env.Ready scope n₀)
    (hn : n₀.Reaches n) (hb : Pattern.Declares p.names env n penv n₁ δ) (hn₁ : n.Reaches n₁) :
    penv.Safe (env.Known n₀ n₁) n₁ := by
  obtain rfl := hb.env_eq
  exact (he.safe (hn.trans hn₁)).declareAll fun k hk x hx => .inr ((hb.taken k hk x hx).mono_left hn)

theorem PatternScoped.ready {penv : TypeEnv} (h : PatternScoped scope env n₀ n₁ penv s₁)
    (hs : penv.Safe (env.Known n₀ n₁) n₁) : (penv.apply s₁).Ready scope n₁ where
  names := h.prior.names
  old := h.prior.old
  apart k σ hk x hx q hq :=
    have ⟨hlt, hq⟩ := (hs.apply h.part.right).apart k σ hk x hx q hq
    ⟨hlt, fun hf => hq (h.free q hf)⟩

theorem scoped_branch {body : Expr} {penv : TypeEnv} {ret bt : Ty} {s₃ s₄ : Subst} {n₂ : Supply}
    (ih : RunsScoped body) (h₀ : s₀.Solved ∧ s₀.Within (env.Known n₀ n))
    (hret : ∀ x ∈ ret.vars, env.Known n₀ n x) (hp : PatternScoped scope env n₀ n₁ penv s₁)
    (hf : body.PatternsNew scope) (hn : n₀.Reaches n) (hn₁ : n.Reaches n₁)
    (rb : Runs (body.infer (penv.apply s₁)) n₁ (s₂, bt) n₂) (hv : unify (s₀.apply ret) bt = .ok s₃)
    (hc : Subst.composeAll [s₀, s₁, s₂, s₃] = .ok s₄) :
    s₄.Solved ∧ s₄.Within (env.Known n₀ n₂) := by
  have hbody := ih rb hp.prior hf
  have known : ∀ x, (penv.apply s₁).Known n₁ n₂ x → env.Known n₀ n₂ x :=
    fun x hx => hx.elim (fun hx => hp.free x hx |>.mono_right rb.reaches) fun hx =>
      .inr (hx.mono_left (hn.trans hn₁))
  have later : ∀ x, env.Known n₀ n x → env.Known n₀ n₂ x :=
    fun x hx => hx.mono_right (hn₁.trans rb.reaches)
  have h₃ : s₃.Solved ∧ s₃.Within (env.Known n₀ n₂) :=
    part_unify hv (fun x hx => later x (h₀.right.apply hret x hx)) fun x hx =>
      known x (hbody.vars x hx)
  have parts : ∀ p ∈ [s₀, s₁, s₂, s₃], p.Solved ∧ p.Within (env.Known n₀ n₂) := by
    simp only [List.forall_mem_cons]
    exact ⟨⟨h₀.left, h₀.right.mono later⟩,
      ⟨hp.part.left, hp.part.right.mono fun _ => .mono_right rb.reaches⟩, hbody.part known, h₃,
      by simp⟩
  have h₄ := Scoped.composeAll (t := .int) parts hc (by simp)
  exact ⟨h₄.solved, h₄.within⟩

theorem scoped_inferBranches {bs : List (Pattern × Expr)} {vt ret : Ty}
    (ih : ∀ b ∈ bs, RunsScoped b.2) (hr : Runs (inferBranches e env vt ret s₀ bs) n s m)
    (he : env.Prior scope n₀) (hn : n₀.Reaches n) (h₀ : s₀.Solved ∧ s₀.Within (env.Known n₀ n))
    (hvt : ∀ x ∈ vt.vars, env.Known n₀ n x) (hret : ∀ x ∈ ret.vars, env.Known n₀ n x)
    (hp : BranchEachPattern Pattern.New scope bs) : s.Solved ∧ s.Within (env.Known n₀ m) := by
  induction bs generalizing s₀ n
  case nil =>
    obtain ⟨rfl, rfl⟩ := runs_inferBranches_nil hr
    exact h₀
  case cons b bs ihs =>
    obtain ⟨penv, pt, n₁, s₁, s₂, bt, n₂, s₃, s₄, rp, hu, rb, hv, hc, r⟩ :=
      runs_inferBranches_cons hr
    obtain ⟨⟨hf, hbf⟩, hp⟩ := hp
    have ⟨ihb, ih⟩ := List.forall_mem_cons.mp ih
    have ⟨δ, hb, hpt⟩ := Pattern.exists_declares rp (he.get?_of_new hf) (he.mono hn).old
    have pattern := scoped_pattern he hn h₀.right hvt hb hpt rp.reaches hu
    have branch := scoped_branch ihb h₀ hret pattern hbf hn rp.reaches rb hv hc
    have hn₂ := rp.reaches.trans rb.reaches
    exact ihs ih r (hn.trans hn₂) branch (fun x hx => (hvt x hx).mono_right hn₂)
      (fun x hx => (hret x hx).mono_right hn₂) hp

theorem scoped_tuple {es : List Expr} (ih : ∀ a ∈ es, RunsScoped a) : RunsScoped (tuple es) := by
  intro scope env n s t m hr he hp
  obtain ⟨ts, r, rfl⟩ := runs_tuple hr
  have ⟨⟨hs, hw⟩, hts⟩ := scoped_inferElems ih r he (.refl n) ⟨.empty, .empty⟩ hp
  rw [← Subst.apply_tuple]
  refine ⟨hs, hw, hw.apply fun x hx => ?_, hs.apply_apply _⟩
  rw [Ty.vars_tuple] at hx
  have ⟨t, ht, hx⟩ := List.mem_flatMap.mp hx
  exact hts t ht x hx

theorem scoped_cases {v : Expr} {bs : List (Pattern × Expr)} (ihv : RunsScoped v)
    (ihb : ∀ b ∈ bs, RunsScoped b.2) : RunsScoped (cases v bs) := by
  intro scope env n s t m hr he hp
  obtain ⟨s₁, vt, n₁, r₁, hn, r₂, rfl⟩ := runs_cases hr
  have h₁ := ihv r₁ he hp.left
  have known : ∀ x, env.Known n n₁ x → env.Known n (n₁.drop 1) x := fun x => .mono_right hn
  have ret : env.Known n (n₁.drop 1) n₁.next :=
    .inr ((Supply.Taken.next hn).mono_left r₁.reaches)
  have ⟨hs, hw⟩ := scoped_inferBranches ihb r₂ he (r₁.reaches.trans hn) (h₁.part known)
    (fun x hx => known x (h₁.vars x hx)) (by simpa using ret) hp.right
  rw [← Subst.apply_var]
  refine ⟨hs, hw, hw.apply ?_, hs.apply_apply _⟩
  simpa using ret.mono_right r₂.reaches

end Loops

theorem scoped_of_runs (e : Expr) : RunsScoped e := by
  induction e
  case int =>
    intro scope env n s t m hr he hp
    cases hr.eq
    exact .empty (by simp)
  case bool =>
    intro scope env n s t m hr he hp
    cases hr.eq
    exact .empty (by simp)
  case var k =>
    intro scope env n s t m hr he hp
    obtain ⟨σ, hk, rfl, rfl, rfl⟩ := runs_var hr
    refine .empty fun x hx => ?_
    exact Scheme.mem_vars_instantiate hr.reaches hx |>.imp_left fun hx =>
      TypeEnv.mem_freeVars.mpr ⟨k, σ, hk, hx⟩
  case nil =>
    intro scope env n s t m hr he hp
    obtain ⟨rfl, rfl, rfl⟩ := runs_nil hr
    exact .empty (by simpa using .inr (.next hr.reaches))
  case lam ih => exact scoped_lam ih
  case binop ihl ihr => exact scoped_binop ihl ihr
  case tuple ih => exact scoped_tuple ih
  case cons ihh iht => exact scoped_cons ihh iht
  case cond ihc ihy ihf => exact scoped_cond ihc ihy ihf
  case app ihf iha => exact scoped_app ihf iha
  case letIn ihv ihb => exact scoped_letIn ihv ihb
  case letRec ihv ihb => exact scoped_letRec ihv ihb
  case cases ihv ihb => exact scoped_cases ihv ihb
  case hole k =>
    intro scope env n s t m hr
    cases k <;> cases hr.eq

theorem runs_scoped (e : Expr) (hr : Runs (e.infer env) n (s, t) m) (he : env.Ready scope n)
    (hp : e.PatternsFresh scope) : Scoped env n m s t :=
  e.scoped_of_runs hr he.prior hp.new

end Expr

end HindleyMilner
