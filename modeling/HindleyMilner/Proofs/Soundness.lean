import HindleyMilner.Context
import HindleyMilner.Proofs.Generalization

namespace HindleyMilner

open Infer

theorem Supply.taken_or {n n₁ m : Supply} {D₁ D₂ : TyVar → Prop} (h₁ : ∀ x, D₁ x → n.Taken n₁ x)
    (h₂ : ∀ x, D₂ x → n₁.Taken m x) (hn : n.Reaches n₁) (hm : n₁.Reaches m) :
    ∀ x, D₁ x ∨ D₂ x → n.Taken m x :=
  fun x hx => hx.elim (fun hx => (h₁ x hx).mono_right hm) fun hx => (h₂ x hx).mono_left hn

-- Of the variables of `D`, a part that knows those of `K'` has to do with those of `D'` only.
structure Inside (K D K' D' : TyVar → Prop) : Prop where
  known : ∀ x, K' x → K x
  only : ∀ x, K' x → D x → D' x
  sub : ∀ x, D' x → D x

namespace Inside

variable {K D K₁ D₁ K₂ D₂ : TyVar → Prop} {s s₁ s₂ : Subst} {S : TyVar → Ty} {t : Ty}
  {env env₂ : TypeEnv} {n n₁ m : Supply}

theorem trans (h : Inside K D K₁ D₁) (h' : Inside K₁ D₁ K₂ D₂) : Inside K D K₂ D₂ where
  known x hx := h.known x (h'.known x hx)
  only x hx hd := h'.only x hx (h.only x (h'.known x hx) hd)
  sub x hx := h.sub x (h'.sub x hx)

theorem avoids (h : Inside K D K₁ D₁) (ha : Avoids D K S) : Avoids D₁ K₁ S :=
  fun x hx hxd y hy hyd => ha x (h.known x hx) (mt (h.only x hx) hxd) y hy (h.sub y hyd)

theorem live (h : Inside K D K₁ D₁) (hk : ∀ x ∈ t.vars, K₁ x) (hl : ∀ x ∈ t.vars, ¬D₁ x) :
    ∀ x ∈ t.vars, ¬D x :=
  fun x hx => mt (h.only x (hk x hx)) (hl x hx)

theorem hides (h : Inside K D K₁ D₁) (hw : s.Within K₁) (hd : s.Hides D₁) : s.Hides D := by
  intro x hx y hy hyd
  cases Subst.mem_vars_image hy
  case inl he => exact hx (he ▸ hyd)
  case inr hm => exact hd x (mt (h.sub x) hx) y hy (h.only y (hw y hm) hyd)

theorem apart (h₁ : Inside K D K₁ D₁) (h₂ : Inside K D K₂ D₂) (hd : ∀ x, D₁ x → ¬D₂ x)
    (hw₁ : s₁.Within K₁) (hw₂ : s₂.Within K₂) : Subst.ApartOn D s₁ s₂ :=
  fun x hx hm₁ hm₂ => hd x (h₁.only x (hw₁ x hm₁) hx) (h₂.only x (hw₂ x hm₂) hx)

theorem earlier (he : ∀ x ∈ env.freeVars, x < n.next) (hd : ∀ x, D x → D₁ x ∨ n₁.Taken m x)
    (hs : ∀ x, D₁ x → D x) (hn : n.Reaches n₁) (hm : n₁.Reaches m) :
    Inside (env.Known n m) D (env.Known n n₁) D₁ where
  known _ := .mono_right hm
  only x hx hxd := by
    refine (hd x hxd).resolve_right fun ht => ?_
    cases hx
    case inl hx => exact (ht.mono_left hn).not_lt (he x hx)
    case inr hx => exact hx.not_taken ht
  sub := hs

theorem first (D₁ : TyVar → Prop) (he : ∀ x ∈ env.freeVars, x < n.next)
    (h₂ : ∀ x, D₂ x → n₁.Taken m x) (hn : n.Reaches n₁) (hm : n₁.Reaches m) :
    Inside (env.Known n m) (fun x => D₁ x ∨ D₂ x) (env.Known n n₁) D₁ :=
  .earlier he (fun x => Or.imp_right (h₂ x)) (fun _ => .inl) hn hm

theorem second (D₂ : TyVar → Prop) (hf : ∀ x ∈ env₂.freeVars, env.Known n n₁ x ∧ ¬D₁ x)
    (h₁ : ∀ x, D₁ x → n.Taken n₁ x) (hn : n.Reaches n₁) (hm : n₁.Reaches m) :
    Inside (env.Known n m) (fun x => D₁ x ∨ D₂ x) (env₂.Known n₁ m) D₂ where
  known x hx := hx.elim (fun hx => (hf x hx).left.mono_right hm) fun hx => .inr (hx.mono_left hn)
  only x hx hd := by
    refine hd.resolve_left fun hd => ?_
    cases hx
    case inl hx => exact (hf x hx).right hd
    case inr hx => exact (h₁ x hd).not_taken hx
  sub _ := .inr

end Inside

namespace Expr

variable {env env₂ : TypeEnv} {scope : List String} {n n₁ m : Supply} {s s₁ s₂ : Subst} {t t₁ t₂ : Ty}
  {D D₁ D₂ : TyVar → Prop} {e e₁ e₂ : Expr} {S : TyVar → Ty} {Γ : TypeEnv}

-- A run that leaves the variables of `D` dead. Under every assignment that solves the constraints
-- and keeps to the variables that live on, `e` has the type that was found.
structure Derives (e : Expr) (env : TypeEnv) (n m : Supply) (s : Subst) (t : Ty)
    (D : TyVar → Prop) : Prop extends Scoped env n m s t where
  taken : ∀ x, D x → n.Taken m x
  hides : s.Hides D
  live : ∀ x ∈ t.vars, ¬D x
  typing : ∀ S Γ, Subst.Solves S s → Avoids D (env.Known n m) S → TypeEnv.Realizes S env Γ →
    Typing Γ e (t.subst S)

theorem free_of_taken (he : env.Ready scope n) (ht : ∀ x, D x → n.Taken m x) :
    ∀ x ∈ env.freeVars, env.Known n m x ∧ ¬D x :=
  fun x hx => ⟨.inl hx, fun hd => (ht x hd).not_lt (he.old x hx)⟩

theorem free_apply_of_hides (he : env.Ready scope n) (ht : ∀ x, D x → n.Taken m x)
    (hw : s.Within (env.Known n m)) (hd : s.Hides D) :
    ∀ x ∈ (env.apply s).freeVars, env.Known n m x ∧ ¬D x := by
  intro x hx
  have ⟨y, hy, hx⟩ := TypeEnv.mem_freeVars_of_apply hx
  exact ⟨hw.image (.inl hy) x hx, hd y (free_of_taken he ht y hy).right x hx⟩

namespace Derives

theorem empty (hs : Scoped env n m ∅ t)
    (ht : ∀ S Γ, TypeEnv.Realizes S env Γ → Typing Γ e (t.subst S)) :
    Derives e env n m ∅ t fun _ => False where
  toScoped := hs
  taken _ := False.elim
  hides := .empty
  live _ _ := id
  typing S Γ _ _ := ht S Γ

theorem free (h : Derives e env n m s t D) (he : env.Ready scope n) :
    ∀ x ∈ env.freeVars, env.Known n m x ∧ ¬D x :=
  free_of_taken he h.taken

theorem free_apply (h : Derives e env n m s t D) (he : env.Ready scope n) :
    ∀ x ∈ (env.apply s).freeVars, env.Known n m x ∧ ¬D x :=
  free_apply_of_hides he h.taken h.within h.hides

end Derives

section Join

variable {K : TyVar → Prop} {n₂ n₃ : Supply} {us : List Subst}

theorem unify_not_mentions {a b : Ty} (h : unify a b = .ok s) (ha : ∀ x ∈ a.vars, ¬D x)
    (hb : ∀ x ∈ b.vars, ¬D x) : s.Solved ∧ ∀ x, D x → ¬s.Mentions x :=
  ⟨solved_of_unify h, fun x hx hm => (mentions_unify h hm).elim (ha x · hx) (hb x · hx)⟩

theorem hides_join (i₁ : Inside K D (env.Known n n₁) D₁) (i₂ : Inside K D (env₂.Known n₁ n₂) D₂)
    (d₁ : Derives e₁ env n n₁ s₁ t₁ D₁) (d₂ : Derives e₂ env₂ n₁ n₂ s₂ t₂ D₂)
    (hus : ∀ u ∈ us, u.Solved ∧ ∀ x, D x → ¬u.Mentions x)
    (h : Subst.composeAll (s₁ :: s₂ :: us) = .ok s) : s.Hides D := by
  have apart : Subst.ApartOn D s₁ s₂ :=
    i₁.apart i₂ (fun x h₁ h₂ => (d₁.taken x h₁).not_taken (d₂.taken x h₂)) d₁.within d₂.within
  refine .composeAll_append [s₁, s₂] ?_ (by simpa using apart) hus h
  simp only [List.forall_mem_cons]
  exact ⟨⟨d₁.solved, i₁.hides d₁.within d₁.hides⟩, ⟨d₂.solved, i₂.hides d₂.within d₂.hides⟩, by simp⟩

theorem solves_join (d₁ : Derives e₁ env n n₁ s₁ t₁ D₁) (d₂ : Derives e₂ env₂ n₁ n₂ s₂ t₂ D₂)
    (hus : ∀ u ∈ us, u.Solved ∧ ∀ x, D x → ¬u.Mentions x)
    (h : Subst.composeAll (s₁ :: s₂ :: us) = .ok s) (hS : Subst.Solves S s) :
    Subst.Solves S s₁ ∧ Subst.Solves S s₂ ∧ ∀ u ∈ us, Subst.Solves S u := by
  have solved : ∀ p ∈ s₁ :: s₂ :: us, p.Solved := by
    simp only [List.forall_mem_cons]
    exact ⟨d₁.solved, d₂.solved, fun u hu => (hus u hu).left⟩
  simpa using Subst.composeAll_join solved |>.solves_iff h |>.mp hS

end Join

def RunsSound (e : Expr) : Prop :=
  ∀ {scope env n s t m}, Runs (e.infer env) n (s, t) m → env.Ready scope n → e.PatternsFresh scope →
    ∃ D, Derives e env n m s t D

theorem sound_lam {p : Pattern} {body : Expr} (ih : RunsSound body) : RunsSound (lam p body) := by
  intro scope env n s t m hr he hp
  have hs := runs_scoped _ hr he hp
  obtain ⟨env', pt, n₁, bt, r₁, r₂, rfl⟩ := runs_lam hr
  have ⟨δ, hb⟩ := Pattern.exists_bound r₁ (he.newIn hp.left) he.old
  obtain rfl := hb.env_eq
  have ⟨D, d⟩ := ih r₂ (he.declareAll r₁.reaches hb.taken_names) hp.right
  have known : ∀ x, (env.declareAll p.names δ).Known n₁ m x → env.Known n m x :=
    fun x => .declareAll hb.taken_names r₁.reaches r₂.reaches
  refine ⟨D, hs, fun x hx => (d.taken x hx).mono_left r₁.reaches, d.hides, d.hides.apply ?_, ?_⟩
  · intro x hx hd
    simp only [Ty.vars_arrow, List.mem_append] at hx
    exact hx.elim (fun hx => (hb.taken x hx).not_taken (d.taken x hd)) (d.live x · hd)
  · intro S Γ hS ha hΓ
    rw [hS.subst_apply, Ty.subst_arrow]
    exact .lam (hb.typing.subst S) <| d.typing S _ hS (fun x hx => ha x (known x hx)) hΓ.declareAll

theorem isComparison_or_isBoolean {op : Op} (h : ¬op.isArithmetic) :
    op.isComparison ∨ op.isBoolean := by
  cases op <;> simp_all [Op.isArithmetic, Op.isComparison, Op.isBoolean]

theorem sound_binop {op : Option Op} {l r : Expr} (ihl : RunsSound l) (ihr : RunsSound r) :
    RunsSound (binop op l r) := by
  intro scope env n s t m hr he hp
  have hs := runs_scoped _ hr he hp
  obtain ⟨o, s₁, lt, n₁, s₂, rt, ss, rfl, r₁, r₂, ho, hc⟩ := runs_binop hr
  have ⟨D₁, d₁⟩ := ihl r₁ he hp.left
  have ⟨D₂, d₂⟩ := ihr r₂ (he.mono r₁.reaches) hp.right
  have i₁ := Inside.first D₁ he.old d₂.taken r₁.reaches r₂.reaches
  have i₂ := Inside.second D₂ (d₁.free he) d₁.taken r₁.reaches r₂.reaches
  have left := i₁.live d₁.vars d₁.live
  have right := i₂.live d₂.vars d₂.live
  have hus : ∀ u ∈ ss, u.Solved ∧ ∀ x, D₁ x ∨ D₂ x → ¬u.Mentions x := by
    cases ho <;> simp only [List.forall_mem_cons]
    case arithmetic u₁ u₂ =>
      exact ⟨unify_not_mentions u₁ left (by simp), unify_not_mentions u₂ right (by simp), by simp⟩
    case relation u => exact ⟨unify_not_mentions u left right, by simp⟩
  have taken := Supply.taken_or d₁.taken d₂.taken r₁.reaches r₂.reaches
  refine ⟨fun x => D₁ x ∨ D₂ x, hs, taken, hides_join i₁ i₂ d₁ d₂ hus hc,
    by cases ho <;> simp, fun S Γ hS ha hΓ => ?_⟩
  have ⟨hS₁, hS₂, hSs⟩ := solves_join d₁ d₂ hus hc hS
  have tl := d₁.typing S Γ hS₁ (i₁.avoids ha) hΓ
  have tr := d₂.typing S Γ hS₂ (i₂.avoids ha) hΓ
  cases ho <;> simp only [List.forall_mem_cons] at hSs
  case arithmetic ho u₁ u₂ =>
    have hl : lt.subst S = .int := by simpa using solves_unify_iff u₁ |>.mp hSs.left
    have hr : rt.subst S = .int := by simpa using solves_unify_iff u₂ |>.mp hSs.right.left
    simpa using .arithmetic ho (hl ▸ tl) (hr ▸ tr)
  case relation ho u =>
    have hlr : lt.subst S = rt.subst S := solves_unify_iff u |>.mp hSs.left
    simpa using .relation (isComparison_or_isBoolean ho) tl (hlr ▸ tr)

theorem sound_cons {hd tl : Expr} (ihh : RunsSound hd) (iht : RunsSound tl) :
    RunsSound (cons hd tl) := by
  intro scope env n s t m hr he hp
  have hs := runs_scoped _ hr he hp
  obtain ⟨s₁, ht, n₁, s₂, tt, s₃, r₁, r₂, hu, hc, rfl⟩ := runs_cons hr
  have ⟨D₁, d₁⟩ := ihh r₁ he hp.left
  have ⟨D₂, d₂⟩ := iht r₂ (he.apply d₁.within r₁.reaches) hp.right
  have i₁ := Inside.first D₁ he.old d₂.taken r₁.reaches r₂.reaches
  have i₂ := Inside.second D₂ (d₁.free_apply he) d₁.taken r₁.reaches r₂.reaches
  have head : ∀ x ∈ (Ty.list ht).vars, ¬(D₁ x ∨ D₂ x) := by
    simpa only [Ty.vars_list] using i₁.live d₁.vars d₁.live
  have tail := i₂.live d₂.vars d₂.live
  have hus : ∀ u ∈ [s₃], u.Solved ∧ ∀ x, D₁ x ∨ D₂ x → ¬u.Mentions x := by
    simpa only [List.forall_mem_singleton] using unify_not_mentions hu head tail
  have hides := hides_join i₁ i₂ d₁ d₂ hus hc
  have taken := Supply.taken_or d₁.taken d₂.taken r₁.reaches r₂.reaches
  refine ⟨fun x => D₁ x ∨ D₂ x, hs, taken, hides, hides.apply tail, fun S Γ hS ha hΓ => ?_⟩
  have ⟨hS₁, hS₂, hS₃⟩ := solves_join d₁ d₂ hus hc hS
  have th := d₁.typing S Γ hS₁ (i₁.avoids ha) hΓ
  have tt := d₂.typing S Γ hS₂ (i₂.avoids ha) (hΓ.apply hS₁ (he.safe r₁.reaches) d₁.within)
  have same := solves_unify_iff hu |>.mp (List.forall_mem_singleton.mp hS₃)
  rw [hS.subst_apply, ← same]
  rw [← same] at tt
  simp only [Ty.subst_list] at tt ⊢
  exact .cons th tt

theorem sound_app {f a : Expr} (ihf : RunsSound f) (iha : RunsSound a) : RunsSound (app f a) := by
  intro scope env n s t m hr he hp
  have hs := runs_scoped _ hr he hp
  obtain ⟨s₁, ft, n₁, s₂, aty, n₂, s₃, r₁, r₂, hn, rfl, hu, hc, rfl⟩ := runs_app hr
  have ⟨D₁, d₁⟩ := ihf r₁ he hp.left
  have ⟨D₂, d₂⟩ := iha r₂ (he.apply d₁.within r₁.reaches) hp.right
  have i₁ := Inside.first D₁ he.old d₂.taken r₁.reaches r₂.reaches
  have i₂ := Inside.second D₂ (d₁.free_apply he) d₁.taken r₁.reaches r₂.reaches
  have taken := Supply.taken_or d₁.taken d₂.taken r₁.reaches r₂.reaches
  have ret : ¬(D₁ n₂.next ∨ D₂ n₂.next) := fun h => Std.lt_irrefl (taken _ h).right
  have hus : ∀ u ∈ [s₃], u.Solved ∧ ∀ x, D₁ x ∨ D₂ x → ¬u.Mentions x := by
    refine List.forall_mem_singleton.mpr <| unify_not_mentions hu ?_ fun x hx => ?_
    · exact (i₂.hides d₂.within d₂.hides).apply (i₁.live d₁.vars d₁.live)
    · simp only [Ty.vars_arrow, Ty.vars_var, List.mem_append, List.mem_singleton] at hx
      exact hx.elim (i₂.live d₂.vars d₂.live x) (· ▸ ret)
  have hides := hides_join i₁ i₂ d₁ d₂ hus hc
  refine ⟨fun x => D₁ x ∨ D₂ x, hs, fun x hx => (taken x hx).mono_right hn, hides, hides _ ret,
    fun S Γ hS ha hΓ => ?_⟩
  have ha : Avoids (fun x => D₁ x ∨ D₂ x) (env.Known n n₂) S := fun x hx => ha x (hx.mono_right hn)
  have ⟨hS₁, hS₂, hS₃⟩ := solves_join d₁ d₂ hus hc hS
  have tf := d₁.typing S Γ hS₁ (i₁.avoids ha) hΓ
  have ta := d₂.typing S Γ hS₂ (i₂.avoids ha) (hΓ.apply hS₁ (he.safe r₁.reaches) d₁.within)
  have same := solves_unify_iff hu |>.mp (List.forall_mem_singleton.mp hS₃)
  rw [hS₂.subst_apply] at same
  rw [same, Ty.subst_arrow, Ty.subst_var] at tf
  rw [hS.subst_image]
  exact .app tf ta

theorem sound_cond {c y f : Expr} (ihc : RunsSound c) (ihy : RunsSound y) (ihf : RunsSound f) :
    RunsSound (cond c y f) := by
  intro scope env n s t m hr he hp
  have hs := runs_scoped _ hr he hp
  obtain ⟨s₁, ct, n₁, s₂, yt, n₂, s₃, ft, s₄, s₅, r₁, r₂, r₃, hu, hv, hc, rfl⟩ := runs_cond hr
  obtain ⟨hp₁, hp₂, hp₃⟩ := hp
  have he₁ := he.mono r₁.reaches
  have ⟨D₁, d₁⟩ := ihc r₁ he hp₁
  have ⟨D₂, d₂⟩ := ihy r₂ he₁ hp₂
  have ⟨D₃, d₃⟩ := ihf r₃ (he₁.mono r₂.reaches) hp₃
  have hn₁ := r₂.reaches.trans r₃.reaches
  have taken₂ := Supply.taken_or d₂.taken d₃.taken r₂.reaches r₃.reaches
  -- The two branches come after the test, as a whole and one by one.
  have i₁ := Inside.first D₁ he.old taken₂ r₁.reaches hn₁
  have branches := Inside.second (fun x => D₂ x ∨ D₃ x) (d₁.free he) d₁.taken r₁.reaches hn₁
  have i₂ := branches.trans <| .first D₂ he₁.old d₃.taken r₂.reaches r₃.reaches
  have i₃ := branches.trans <| .second D₃ (d₂.free he₁) d₂.taken r₂.reaches r₃.reaches
  have test := i₁.live d₁.vars d₁.live
  have yes := i₂.live d₂.vars d₂.live
  have no := i₃.live d₃.vars d₃.live
  have hus : ∀ u ∈ [s₄, s₅], u.Solved ∧ ∀ x, D₁ x ∨ D₂ x ∨ D₃ x → ¬u.Mentions x := by
    simp only [List.forall_mem_cons]
    exact ⟨unify_not_mentions hu test (by simp), unify_not_mentions hv yes no, by simp⟩
  have hides : s.Hides fun x => D₁ x ∨ D₂ x ∨ D₃ x := by
    refine .composeAll_append [s₁, s₂, s₃] ?_ ?_ hus hc
    · simp only [List.forall_mem_cons]
      exact ⟨⟨d₁.solved, i₁.hides d₁.within d₁.hides⟩, ⟨d₂.solved, i₂.hides d₂.within d₂.hides⟩,
        ⟨d₃.solved, i₃.hides d₃.within d₃.hides⟩, by simp⟩
    · have a₁₂ := i₁.apart i₂ (fun x h₁ h₂ => (d₁.taken x h₁).not_taken (d₂.taken x h₂)) d₁.within
        d₂.within
      have a₁₃ := i₁.apart i₃ (fun x h₁ h₃ => (d₁.taken x h₁).not_taken (taken₂ x (.inr h₃)))
        d₁.within d₃.within
      have a₂₃ := i₂.apart i₃ (fun x h₂ h₃ => (d₂.taken x h₂).not_taken (d₃.taken x h₃)) d₂.within
        d₃.within
      simp [a₁₂, a₁₃, a₂₃]
  refine ⟨fun x => D₁ x ∨ D₂ x ∨ D₃ x, hs, Supply.taken_or d₁.taken taken₂ r₁.reaches hn₁, hides,
    hides.apply no, fun S Γ hS ha hΓ => ?_⟩
  have solved : ∀ p ∈ [s₁, s₂, s₃, s₄, s₅], p.Solved := by
    simp only [List.forall_mem_cons] at hus ⊢
    exact ⟨d₁.solved, d₂.solved, d₃.solved, hus.left.left, hus.right.left.left, by simp⟩
  have hS' := Subst.composeAll_join solved |>.solves_iff hc |>.mp hS
  simp only [List.forall_mem_cons] at hS'
  obtain ⟨hS₁, hS₂, hS₃, hS₄, hS₅, -⟩ := hS'
  have tc := d₁.typing S Γ hS₁ (i₁.avoids ha) hΓ
  have ty := d₂.typing S Γ hS₂ (i₂.avoids ha) hΓ
  have tn := d₃.typing S Γ hS₃ (i₃.avoids ha) hΓ
  have bool : ct.subst S = .bool := by simpa using solves_unify_iff hu |>.mp hS₄
  have same := solves_unify_iff hv |>.mp hS₅
  rw [hS.subst_apply]
  exact .cond (bool ▸ tc) (same ▸ ty) tn

section Let

variable {env' : TypeEnv} {k : String} {v body : Expr} {ok : TypeEnv → TypeEnv → Prop}

-- A binding that leaves the variables of `D` dead. In the declarative system, `ok` says which
-- environments may come out.
structure Extends (ok : TypeEnv → TypeEnv → Prop) (env : TypeEnv) (n m : Supply) (s : Subst)
    (env' : TypeEnv) (D : TyVar → Prop) : Prop where
  taken : ∀ x, D x → n.Taken m x
  hides : s.Hides D
  live : ∀ x ∈ env'.freeVars, ¬D x
  realizes : ∀ S Γ, Subst.Solves S s → Avoids D (env.Known n m) S → TypeEnv.Realizes S env Γ →
    ∃ Γ', ok Γ Γ' ∧ TypeEnv.Realizes S env' Γ'

theorem Extends.derives (b : Extends ok env n n₁ s₁ env' D₁) (hb : Binds scope env k n n₁ s₁ env')
    (d : Derives body env' n₁ m s₂ t D₂) (he : env.Ready scope n) (hn : n.Reaches n₁)
    (hm : n₁.Reaches m) (hc : s₁.compose s₂ = .ok s)
    (hok : ∀ Γ Γ' υ, ok Γ Γ' → Typing Γ' body υ → Typing Γ e υ) :
    Derives e env n m s t fun x => D₁ x ∨ D₂ x := by
  have free : ∀ x ∈ env'.freeVars, env.Known n n₁ x ∧ ¬D₁ x :=
    fun x hx => ⟨hb.known hn (.refl n₁) (.inl hx), b.live x hx⟩
  have i₁ := Inside.first D₁ he.old d.taken hn hm
  have i₂ := Inside.second D₂ free b.taken hn hm
  have apart := i₁.apart i₂ (fun x h₁ h₂ => (b.taken x h₁).not_taken (d.taken x h₂)) hb.within d.within
  refine ⟨hb.body he.prior hn hm d.toScoped hc, Supply.taken_or b.taken d.taken hn hm, ?_,
    i₂.live d.vars d.live, fun S Γ hS ha hΓ => ?_⟩
  · exact .compose hb.solved d.solved (i₁.hides hb.within b.hides) (i₂.hides d.within d.hides) apart hc
  · have ⟨hS₁, hS₂⟩ := Subst.compose_join s₁ d.solved |>.solves_iff hc |>.mp hS
    have ⟨Γ', hΓ', hr⟩ := b.realizes S Γ hS₁ (i₁.avoids ha) hΓ
    exact hok Γ Γ' _ hΓ' (d.typing S Γ' hS₂ (i₂.avoids ha) hr)

theorem not_dead_of_declare {x : TyVar}
    (h : x ∈ ((env.apply s).declare k ((env.apply s).generalize t)).freeVars) : ¬env.Dead s n m x :=
  fun hd => hd.right (TypeEnv.mem_freeVars_of_declare_generalize h)

theorem Derives.extends (d : Derives v env n m s t D) (he : env.Ready scope n) (hr : n.Reaches m) :
    Extends (fun Γ Γ' => ∃ τ, Typing Γ v τ ∧ Γ' = Γ.declare k (Γ.generalize τ)) env n m s
      ((env.apply s).declare k ((env.apply s).generalize t)) (env.Dead s n m) where
  taken _ := And.left
  hides := d.hides_dead he hr
  live _ := not_dead_of_declare
  realizes S Γ hS ha hΓ := by
    have spared := hΓ.congr fun x hx => (d.sparing_of_mem_freeVars he hr hS hx).symm
    have tv := d.typing _ Γ d.solved.solves_sparing (d.avoids_sparing he d.hides d.taken ha)
      spared
    refine ⟨_, ⟨_, tv, rfl⟩, ?_⟩
    exact .declare (hΓ.apply hS (he.safe hr) d.within) (d.realized_generalize he hr ha hΓ)

section Recursive

variable (d : Derives v (env.declareMono k (.var n.next)) (n.drop 1) m s₁ t D)
  (hn : n.Reaches (n.drop 1)) (hu : unify (s₁.image n.next) t = .ok s₂)
  (hc : s₁.compose s₂ = .ok s)

include d hn hu hc

theorem Derives.hides_recursive : s.Hides D := by
  have self : ¬D n.next := fun h => (d.taken _ h).not_lt (Supply.Taken.next hn).right
  have ⟨hs, hm⟩ := unify_not_mentions hu (d.hides _ self) d.live
  exact .compose d.solved hs d.hides (Subst.hides_of_not_mentions hm) (fun x hx _ => hm x hx) hc

theorem Derives.typing_recursive (hS : Subst.Solves S s)
    (ha : Avoids D ((env.remove k).Known n m) S) (hm : (n.drop 1).Reaches m)
    (hΓ : TypeEnv.Realizes S (env.remove k) (Γ.remove k)) :
    Typing (Γ.declareMono k (t.subst S)) v (t.subst S) := by
  have ⟨hS₁, hS₂⟩ := Subst.compose_join s₁ (solved_of_unify hu) |>.solves_iff hc |>.mp hS
  have self : S n.next = t.subst S := by
    rw [← hS₁.subst_image]
    exact solves_unify_iff hu |>.mp hS₂
  have known : ∀ x, (env.declareMono k (.var n.next)).Known (n.drop 1) m x →
      (env.remove k).Known n m x := by
    rw [← TypeEnv.declareMono_remove]
    exact fun x => .declareMono hn hm
  refine d.typing S _ hS₁ (fun x hx => ha x (known x hx)) ?_
  have := TypeEnv.Realizes.declareMono (k := k) (t := .var n.next) hΓ
  rwa [TypeEnv.declareMono_remove, TypeEnv.declareMono_remove, Ty.subst_var, self] at this

end Recursive

theorem Derives.extends_recursive
    (d : Derives v (env.declareMono k (.var n.next)) (n.drop 1) m s₁ t D) (he : env.Ready scope n)
    (hn : n.Reaches (n.drop 1)) (hm : (n.drop 1).Reaches m)
    (hu : unify (s₁.image n.next) t = .ok s₂) (hc : s₁.compose s₂ = .ok s) :
    Extends (fun Γ Γ' => ∃ τ, Typing (Γ.declareMono k τ) v τ ∧
        Γ' = Γ.declare k (Γ.generalizeRec τ k)) env n m s
      (((env.remove k).apply s).declare k (((env.remove k).apply s).generalize (s.apply t)))
      ((env.remove k).Dead s n m) := by
  have hr := hn.trans hm
  have hs := d.toScoped.recursive hn hm hu hc
  refine ⟨fun _ => And.left, hs.hides_dead he.remove hr, fun _ => not_dead_of_declare,
    fun S Γ hS ha hΓ => ?_⟩
  have hΓ : TypeEnv.Realizes S (env.remove k) (Γ.remove k) := hΓ.remove
  have ha : Avoids ((env.remove k).Dead s n m) ((env.remove k).Known n m) S :=
    fun x hx => ha x (hx.imp_left TypeEnv.mem_freeVars_of_remove)
  have spared := hΓ.congr fun x hx => (hs.sparing_of_mem_freeVars he.remove hr hS hx).symm
  have avoids := hs.avoids_sparing he.remove (d.hides_recursive hn hu hc)
    (fun x hx => (d.taken x hx).mono_left hn) ha
  have solves : Subst.Solves (s.sparing ((env.remove k).Dead s n m) S) s := hs.solved.solves_sparing
  have tv := d.typing_recursive hn hu hc solves avoids hm spared
  have gen := hs.realized_generalize he.remove hr ha hΓ
  rw [solves.subst_apply] at gen
  refine ⟨_, ⟨_, tv, rfl⟩, ?_⟩
  rw [← @TypeEnv.declare_remove Γ]
  exact .declare (hΓ.apply hS (he.remove.safe hr) hs.within) gen

theorem sound_letIn (ihv : RunsSound v) (ihb : RunsSound body) : RunsSound (letIn k v body) := by
  intro scope env n s t m hr he hp
  obtain ⟨s₁, env', n₁, s₂, r₁, r₂, hc⟩ := runs_letIn hr
  obtain ⟨tv, rv, rfl⟩ := runs_binding r₁
  have ⟨D₁, d₁⟩ := ihv rv he hp.left
  have hb := d₁.toScoped.binds (k := k) he.prior rv.reaches
  have ⟨D₂, d₂⟩ := ihb r₂ (hb.ready he) hp.right
  refine ⟨_, (d₁.extends he rv.reaches).derives hb d₂ he rv.reaches r₂.reaches hc ?_⟩
  rintro Γ _ υ ⟨τ, hv, rfl⟩ hb
  exact .letIn hv hb

theorem sound_letRec (ihv : RunsSound v) (ihb : RunsSound body) : RunsSound (letRec k v body) := by
  intro scope env n s t m hr he hp
  obtain ⟨s₁, env', n₁, s₂, r₁, r₂, hc⟩ := runs_letRec hr
  obtain ⟨sv, tv, su, hn, rv, hu, hcv, rfl⟩ := runs_recBinding v.grows_infer r₁
  have ⟨D₁, d₁⟩ := ihv rv (he.declareMono hn) hp.left
  have hv := d₁.toScoped.recursive hn rv.reaches hu hcv
  have hb := (hv.binds (k := k) he.remove.prior r₁.reaches).of_remove
  have ⟨D₂, d₂⟩ := ihb r₂ (hb.ready he) hp.right
  have b := d₁.extends_recursive he hn rv.reaches hu hcv
  refine ⟨_, b.derives hb d₂ he r₁.reaches r₂.reaches hc ?_⟩
  rintro Γ _ υ ⟨τ, hv, rfl⟩ hb
  exact .letRec hv hb

end Let

section Loops

variable {n₀ : Supply} {s₀ : Subst} {D₀ : TyVar → Prop} {ts : List Ty}

theorem sound_inferElems (D₀ : TyVar → Prop) {es : List Expr} (ih : ∀ a ∈ es, RunsSound a)
    (hr : Runs (inferElems e env s₀ es) n (s, ts) m) (he : env.Ready scope n₀) (hn : n₀.Reaches n)
    (h₀ : s₀.Solved ∧ s₀.Within (env.Known n₀ n)) (ht : ∀ x, D₀ x → n₀.Taken n x)
    (hd : s₀.Hides D₀) (hp : AllEachPattern Pattern.Fresh scope es) :
    ∃ D, (∀ x, D₀ x → D x) ∧ (∀ x, D x → D₀ x ∨ n.Taken m x) ∧ s.Hides D ∧
      (∀ t ∈ ts, ∀ x ∈ t.vars, ¬D x) ∧
      ∀ S Γ, Subst.Solves S s → Avoids D (env.Known n₀ m) S → TypeEnv.Realizes S env Γ →
        Subst.Solves S s₀ ∧ TypingAll Γ es (ts.map (·.subst S)) := by
  induction es generalizing s₀ n ts D₀
  case nil =>
    obtain ⟨rfl, rfl, rfl⟩ := runs_inferElems_nil hr
    exact ⟨D₀, fun _ => id, fun _ => .inl, hd, by simp, fun S Γ hS _ _ => ⟨hS, .nil⟩⟩
  case cons a es ihs =>
    obtain ⟨s₁, t, n₁, s₂, ts', r₁, hc, r₂, rfl⟩ := runs_inferElems_cons hr
    have ⟨iha, ih⟩ := List.forall_mem_cons.mp ih
    have ⟨D₁, d₁⟩ := iha r₁ (he.apply h₀.right hn) hp.left
    have i₀ := Inside.first D₀ he.old d₁.taken hn r₁.reaches
    have i₁ := Inside.second D₁ (free_apply_of_hides he ht h₀.right hd) ht hn r₁.reaches
    have join := Subst.compose_join s₀ d₁.solved
    have within := d₁.within_compose h₀.right hn r₁.reaches hc
    have taken := Supply.taken_or ht d₁.taken hn r₁.reaches
    have hides : s₂.Hides fun x => D₀ x ∨ D₁ x :=
      .compose h₀.left d₁.solved (i₀.hides h₀.right hd) (i₁.hides d₁.within d₁.hides)
        (i₀.apart i₁ (fun x h₀ h₁ => (ht x h₀).not_taken (d₁.taken x h₁)) h₀.right d₁.within) hc
    have ⟨D, sub, new, hD, live, typing⟩ := ihs _ ih r₂ (hn.trans r₁.reaches) ⟨join.solved hc, within⟩
      taken hides hp.right
    have i := (Inside.earlier he.old new sub (hn.trans r₁.reaches) r₂.reaches).trans i₁
    refine ⟨D, fun x hx => sub x (.inl hx), fun x hx => ?_, hD, ?_, fun S Γ hS ha hΓ => ?_⟩
    · obtain (hx | hx) | hx := new x hx
      · exact .inl hx
      · exact .inr ((d₁.taken x hx).mono_right r₂.reaches)
      · exact .inr (hx.mono_left r₁.reaches)
    · exact List.forall_mem_cons.mpr ⟨i.live d₁.vars d₁.live, live⟩
    · have ⟨hS₂, hts⟩ := typing S Γ hS ha hΓ
      have ⟨hS₀, hS₁⟩ := join.solves_iff hc |>.mp hS₂
      have hta := d₁.typing S Γ hS₁ (i.avoids ha) (hΓ.apply hS₀ (he.safe hn) h₀.right)
      exact ⟨hS₀, .cons hta hts⟩

theorem sound_tuple {es : List Expr} (ih : ∀ a ∈ es, RunsSound a) : RunsSound (tuple es) := by
  intro scope env n s t m hr he hp
  have hs := runs_scoped _ hr he hp
  obtain ⟨ts, r, rfl⟩ := runs_tuple hr
  have ⟨D, _, new, hides, live, typing⟩ := sound_inferElems (fun _ => False) ih r he (.refl n)
    ⟨.empty, .empty⟩ (fun _ => False.elim) .empty hp
  rw [← Subst.apply_tuple] at hs ⊢
  refine ⟨D, hs, fun x hx => (new x hx).resolve_left id, hides, hides.apply fun x hx => ?_,
    fun S Γ hS ha hΓ => ?_⟩
  · rw [Ty.vars_tuple] at hx
    have ⟨t, ht, hx⟩ := List.mem_flatMap.mp hx
    exact live t ht x hx
  · rw [hS.subst_apply, Ty.subst_tuple]
    exact .tuple (typing S Γ hS ha hΓ).right

section Branch

variable {p : Pattern} {body : Expr} {penv : TypeEnv} {vt pt bt : Ty} {δ : String → Ty}
  {K : TyVar → Prop} {n₂ : Supply} {s₃ s₄ : Subst}

theorem pattern_not_mentions (hb : p.Bound env n penv pt n₁ δ) (ht : ∀ x, D₀ x → n₀.Taken n x)
    (hd : s₀.Hides D₀) (hvt : ∀ x ∈ vt.vars, ¬D₀ x) (hu : unify pt (s₀.apply vt) = .ok s₁) :
    ∀ x, D₀ x → ¬s₁.Mentions x :=
  (unify_not_mentions hu (fun x hx hd => (ht x hd).not_taken (hb.taken x hx)) (hd.apply hvt)).right

theorem pattern_live (he : env.Ready scope n₀) (hb : p.Bound env n penv pt n₁ δ)
    (ht : ∀ x, D₀ x → n₀.Taken n x) (hs : ∀ x, D₀ x → ¬s₁.Mentions x) :
    ∀ x ∈ (penv.apply s₁).freeVars, ¬D₀ x := by
  obtain rfl := hb.env_eq
  intro x hx
  have ⟨y, hy, hx⟩ := TypeEnv.mem_freeVars_of_apply hx
  refine Subst.hides_of_not_mentions hs y (fun hd => ?_) x hx
  obtain hy | ⟨k, hk, hy⟩ := TypeEnv.mem_freeVars_of_declareAll hy
  · exact (ht y hd).not_lt (he.old y hy)
  · exact (ht y hd).not_taken (hb.taken_names k hk y hy)

theorem hides_branch (i₀ : Inside K D (env.Known n₀ n₁) D₀)
    (i₂ : Inside K D ((penv.apply s₁).Known n₁ n₂) D₂)
    (d₂ : Derives body (penv.apply s₁) n₁ n₂ s₂ bt D₂)
    (h₀ : s₀.Solved ∧ s₀.Within (env.Known n₀ n₁)) (hd : s₀.Hides D₀)
    (ht : ∀ x, D₀ x → n₀.Taken n₁ x) (h₁ : s₁.Solved ∧ ∀ x, D x → ¬s₁.Mentions x)
    (h₃ : s₃.Solved ∧ ∀ x, D x → ¬s₃.Mentions x)
    (hc : Subst.composeAll [s₀, s₁, s₂, s₃] = .ok s₄) : s₄.Hides D := by
  have a₀₂ := i₀.apart i₂ (fun x h₀ h₂ => (ht x h₀).not_taken (d₂.taken x h₂)) h₀.right d₂.within
  refine .composeAll ?_ ?_ hc
  · simp only [List.forall_mem_cons]
    exact ⟨⟨h₀.left, i₀.hides h₀.right hd⟩, h₁.imp_right Subst.hides_of_not_mentions,
      ⟨d₂.solved, i₂.hides d₂.within d₂.hides⟩, h₃.imp_right Subst.hides_of_not_mentions, by simp⟩
  · simp only [List.pairwise_cons, List.forall_mem_cons]
    exact ⟨⟨fun x hx _ => h₁.right x hx, a₀₂, fun x hx _ => h₃.right x hx, by simp⟩,
      ⟨fun x hx hm => absurd hm (h₁.right x hx), fun x hx _ => h₃.right x hx, by simp⟩,
      ⟨fun x hx _ => h₃.right x hx, by simp⟩, by simp⟩

end Branch

theorem sound_inferBranches {bs : List (Pattern × Expr)} {vt ret : Ty}
    (ih : ∀ b ∈ bs, RunsSound b.2) (hr : Runs (inferBranches e env vt ret s₀ bs) n s m)
    (he : env.Ready scope n₀) (hn : n₀.Reaches n) (h₀ : s₀.Solved ∧ s₀.Within (env.Known n₀ n))
    (ht : ∀ x, D₀ x → n₀.Taken n x) (hd : s₀.Hides D₀)
    (hvt : ∀ x ∈ vt.vars, env.Known n₀ n x ∧ ¬D₀ x) (hret : ∀ x ∈ ret.vars, env.Known n₀ n x ∧ ¬D₀ x)
    (hp : BranchEachPattern Pattern.Fresh scope bs) :
    ∃ D, (∀ x, D₀ x → D x) ∧ (∀ x, D x → D₀ x ∨ n.Taken m x) ∧ s.Hides D ∧
      ∀ S Γ, Subst.Solves S s → Avoids D (env.Known n₀ m) S → TypeEnv.Realizes S env Γ →
        Subst.Solves S s₀ ∧ BranchTyping Γ (vt.subst S) (ret.subst S) bs := by
  induction bs generalizing s₀ n D₀
  case nil =>
    obtain ⟨rfl, rfl⟩ := runs_inferBranches_nil hr
    exact ⟨D₀, fun _ => id, fun _ => .inl, hd, fun S Γ hS _ _ => ⟨hS, .nil⟩⟩
  case cons b bs ihs =>
    obtain ⟨penv, pt, n₁, s₁, s₂, bt, n₂, s₃, s₄, rp, hu, rb, hv, hc, r⟩ :=
      runs_inferBranches_cons hr
    obtain ⟨⟨hf, hbf⟩, hp⟩ := hp
    have ⟨ihb, ih⟩ := List.forall_mem_cons.mp ih
    have ⟨δ, hb⟩ := Pattern.exists_bound rp ((he.mono hn).newIn hf) (he.mono hn).old
    obtain rfl := hb.env_eq
    have join := scoped_pattern he.prior hn h₀.right (fun x hx => (hvt x hx).left) hb.declares
      hb.taken rp.reaches hu
    have branch := scoped_branch b.2.scoped_of_runs h₀ (fun x hx => (hret x hx).left) join
      (PatternsFresh.new hbf) hn rp.reaches rb hv hc
    have safe := safe_pattern he hn hb.declares rp.reaches
    have ⟨D₂, d₂⟩ := ihb rb (join.ready safe) hbf
    have hn₁ := hn.trans rp.reaches
    have within₀ : s₀.Within (env.Known n₀ n₁) := h₀.right.mono fun _ => .mono_right rp.reaches
    have taken₀ : ∀ x, D₀ x → n₀.Taken n₁ x := fun x hx => (ht x hx).mono_right rp.reaches
    have pattern := pattern_not_mentions hb ht hd (fun x hx => (hvt x hx).right) hu
    have free : ∀ x ∈ ((env.declareAll b.1.names δ).apply s₁).freeVars,
        env.Known n₀ n₁ x ∧ ¬D₀ x :=
      fun x hx => ⟨join.free x hx, pattern_live he hb ht pattern x hx⟩
    have i₀ := Inside.first D₀ he.old d₂.taken hn₁ rb.reaches
    have i₂ := Inside.second D₂ free taken₀ hn₁ rb.reaches
    have m₁ : ∀ x, D₀ x ∨ D₂ x → ¬s₁.Mentions x := fun x hx hm =>
      pattern x (i₀.only x (join.part.right x hm) hx) hm
    have vt_live : ∀ x ∈ vt.vars, ¬(D₀ x ∨ D₂ x) :=
      i₀.live (fun x hx => (hvt x hx).left.mono_right rp.reaches) fun x hx => (hvt x hx).right
    have ret_live : ∀ x ∈ ret.vars, ¬(D₀ x ∨ D₂ x) :=
      i₀.live (fun x hx => (hret x hx).left.mono_right rp.reaches) fun x hx => (hret x hx).right
    have h₃ := unify_not_mentions hv ((i₀.hides within₀ hd).apply ret_live)
      (i₂.live d₂.vars d₂.live)
    have hides := hides_branch i₀ i₂ d₂ ⟨h₀.left, within₀⟩ hd taken₀ ⟨join.part.left, m₁⟩ h₃ hc
    have hn₂ := rp.reaches.trans rb.reaches
    have taken := Supply.taken_or taken₀ d₂.taken hn₁ rb.reaches
    have ⟨D, sub, new, hD, typing⟩ := ihs ih r (hn.trans hn₂) branch taken hides
      (fun x hx => ⟨(hvt x hx).left.mono_right hn₂, vt_live x hx⟩)
      (fun x hx => ⟨(hret x hx).left.mono_right hn₂, ret_live x hx⟩) hp
    have i := (Inside.earlier he.old new sub (hn.trans hn₂) r.reaches).trans i₂
    refine ⟨D, fun x hx => sub x (.inl hx), fun x hx => ?_, hD, fun S Γ hS ha hΓ => ?_⟩
    · obtain (hx | hx) | hx := new x hx
      · exact .inl hx
      · exact .inr (((d₂.taken x hx).mono_right r.reaches).mono_left rp.reaches)
      · exact .inr (hx.mono_left hn₂)
    · have ⟨hS₄, hbs⟩ := typing S Γ hS ha hΓ
      have solved : ∀ p ∈ [s₀, s₁, s₂, s₃], p.Solved := by
        simp only [List.forall_mem_cons]
        exact ⟨h₀.left, join.part.left, d₂.solved, h₃.left, by simp⟩
      have hS' := Subst.composeAll_join solved |>.solves_iff hc |>.mp hS₄
      simp only [List.forall_mem_cons] at hS'
      obtain ⟨hS₀, hS₁, hS₂, hS₃, -⟩ := hS'
      have tb := d₂.typing S _ hS₂ (i.avoids ha)
        (hΓ.declareAll.apply hS₁ safe join.part.right)
      have pt_vt := solves_unify_iff hu |>.mp hS₁
      have ret_bt := solves_unify_iff hv |>.mp hS₃
      rw [hS₀.subst_apply] at pt_vt ret_bt
      exact ⟨hS₀, .cons (pt_vt ▸ hb.typing.subst S) (ret_bt ▸ tb) hbs⟩

theorem sound_cases {v : Expr} {bs : List (Pattern × Expr)} (ihv : RunsSound v)
    (ihb : ∀ b ∈ bs, RunsSound b.2) : RunsSound (cases v bs) := by
  intro scope env n s t m hr he hp
  have hs := runs_scoped _ hr he hp
  obtain ⟨s₁, vt, n₁, r₁, hn, r₂, rfl⟩ := runs_cases hr
  have ⟨D₁, d₁⟩ := ihv r₁ he hp.left
  have ret : ¬D₁ n₁.next := fun h => Std.lt_irrefl (d₁.taken _ h).right
  have known : env.Known n (n₁.drop 1) n₁.next := .inr ((Supply.Taken.next hn).mono_left r₁.reaches)
  have part : s₁.Solved ∧ s₁.Within (env.Known n (n₁.drop 1)) := d₁.part fun _ => .mono_right hn
  have ⟨D, sub, new, hides, typing⟩ := sound_inferBranches ihb r₂ he (r₁.reaches.trans hn) part
    (fun x hx => (d₁.taken x hx).mono_right hn) d₁.hides
    (fun x hx => ⟨(d₁.vars x hx).mono_right hn, d₁.live x hx⟩) (by simpa using ⟨known, ret⟩) hp.right
  have i := Inside.earlier he.old (fun x hx => (new x hx).imp_right fun hx => hx.mono_left hn) sub
    r₁.reaches (hn.trans r₂.reaches)
  refine ⟨D, hs, fun x hx => ?_, hides, hides _ fun hd => ?_, fun S Γ hS ha hΓ => ?_⟩
  · exact (new x hx).elim (fun hx => (d₁.taken x hx).mono_right (hn.trans r₂.reaches)) fun hx =>
      hx.mono_left (r₁.reaches.trans hn)
  · exact (new _ hd).elim ret (Supply.Taken.next hn).not_taken
  · have ⟨hS₁, hbs⟩ := typing S Γ hS ha hΓ
    rw [hS.subst_image]
    exact .cases (d₁.typing S Γ hS₁ (i.avoids ha) hΓ) (by simpa using hbs)

end Loops

theorem runs_sound (e : Expr) : RunsSound e := by
  induction e
  case int =>
    intro scope env n s t m hr he hp
    have hs := runs_scoped _ hr he hp
    cases hr.eq
    exact ⟨_, .empty hs fun S Γ _ => by simpa using .int⟩
  case bool =>
    intro scope env n s t m hr he hp
    have hs := runs_scoped _ hr he hp
    cases hr.eq
    exact ⟨_, .empty hs fun S Γ _ => by simpa using .bool⟩
  case var k =>
    intro scope env n s t m hr he hp
    have hs := runs_scoped _ hr he hp
    obtain ⟨σ, hk, rfl, rfl, rfl⟩ := runs_var hr
    refine ⟨_, .empty hs fun S Γ hΓ => ?_⟩
    have ⟨σ', hk', hσ⟩ := hΓ.exists_right hk
    exact .var hk' <| hσ.instances _ <| σ.instanceAt_instantiate n S
  case nil =>
    intro scope env n s t m hr he hp
    have hs := runs_scoped _ hr he hp
    obtain ⟨rfl, rfl, rfl⟩ := runs_nil hr
    exact ⟨_, .empty hs fun S Γ _ => by simpa using .nil⟩
  case lam ih => exact sound_lam ih
  case binop ihl ihr => exact sound_binop ihl ihr
  case tuple ih => exact sound_tuple ih
  case cons ihh iht => exact sound_cons ihh iht
  case cond ihc ihy ihf => exact sound_cond ihc ihy ihf
  case app ihf iha => exact sound_app ihf iha
  case letIn ihv ihb => exact sound_letIn ihv ihb
  case letRec ihv ihb => exact sound_letRec ihv ihb
  case cases ihv ihb => exact sound_cases ihv ihb
  case hole k =>
    intro scope env n s t m hr
    cases k <;> cases hr.eq

end Expr

namespace TypeEnv

variable {env : TypeEnv} {scope : List String} {n : Supply} {s : Subst} {S : TyVar → Ty} {t : Ty}
  {k : String}

def Closed (env : TypeEnv) : Prop :=
  ∀ x, x ∉ env.freeVars

namespace Closed

theorem not_mem {σ : Scheme} (h : env.Closed) (hk : env.get? k = some σ) (x : TyVar) :
    x ∉ σ.freeVars :=
  fun hx => h x (mem_freeVars.mpr ⟨k, σ, hk, hx⟩)

theorem ready (h : env.Closed) (hk : ∀ k ∈ env.names, k ∈ scope) : env.Ready scope n where
  names := hk
  old x hx := absurd hx (h x)
  apart _ _ hk x hx := absurd hx (h.not_mem hk x)

theorem realizes (h : env.Closed) : Realizes S env env :=
  .self fun _ _ hk =>
    ⟨fun _ hτ => hτ.congr fun x hx => absurd hx (h.not_mem hk x),
      fun x hx => absurd hx (h.not_mem hk x)⟩

theorem apply (h : env.Closed) : env.apply s = env :=
  apply_eq_self fun x hx => absurd hx (h x)

theorem remove (h : env.Closed) : (env.remove k).Closed :=
  fun x hx => h x (mem_freeVars_of_remove hx)

theorem declare_generalize (h : env.Closed) : (env.declare k (env.generalize t)).Closed :=
  fun x hx => h x (mem_freeVars_of_declare_generalize hx)

theorem declare_generalizeRec (h : env.Closed) :
    (env.declare k (env.generalizeRec t k)).Closed := by
  rw [← declare_remove]
  exact h.remove.declare_generalize

end Closed

end TypeEnv

section Closed

variable {env env' : TypeEnv} {scope : List String} {n m : Supply} {s : Subst} {t : Ty} {e : Expr}

theorem Subst.Hides.avoids {D K : TyVar → Prop} (h : s.Hides D) : Avoids D K s.image :=
  fun x _ hx => h x hx

theorem Expr.typing_of_runs (hr : Runs (e.infer env) n (s, t) m) (hc : env.Closed)
    (hk : ∀ k ∈ env.names, k ∈ scope) (hp : e.PatternsFresh scope) : Typing env e (s.apply t) :=
  have ⟨_, d⟩ := e.runs_sound hr (hc.ready hk) hp
  d.typing s.image env d.solved.solves_image d.hides.avoids hc.realizes

theorem Program.typing_of_runs {p : Program} {i : Nat} (hr : Runs (Program.infer env i p) n env' m)
    (hc : env.Closed) (hk : ∀ k ∈ env.names, k ∈ scope) (hp : PatternsFresh scope p) :
    Typing env p env' := by
  induction p generalizing env i n scope
  case nil =>
    cases hr.eq
    exact .nil
  case cons stmt p ih =>
    have ⟨env₁, n₁, r₁, r₂⟩ := runs_cons hr
    cases stmt
    case decl x v =>
      have ⟨s, r₁⟩ := Stmt.runs_decl r₁
      obtain ⟨t, rv, rfl⟩ := Expr.runs_binding r₁
      have hv := Expr.typing_of_runs rv hc hk hp.left
      rw [(v.runs_scoped rv (hc.ready hk) hp.left).normal] at hv
      rw [hc.apply] at r₂
      exact .decl hv <| ih r₂ hc.declare_generalize (TypeEnv.names_declare hk) hp.right
    case declRec x v =>
      have ⟨s, r₁⟩ := Stmt.runs_declRec r₁
      obtain ⟨s₁, t, s₂, hn, rv, hu, hcv, rfl⟩ := Expr.runs_recBinding v.grows_infer r₁
      have ⟨D, d⟩ := v.runs_sound rv ((hc.ready hk).declareMono hn) hp.left
      have hs := d.toScoped.recursive hn rv.reaches hu hcv
      have hv := d.typing_recursive (Γ := env) hn hu hcv hs.solved.solves_image
        (d.hides_recursive hn hu hcv).avoids rv.reaches hc.remove.realizes
      rw [hc.remove.apply, TypeEnv.declare_remove] at r₂
      exact .declRec hv <| ih r₂ hc.declare_generalizeRec (TypeEnv.names_declare hk) hp.right
    case expr e =>
      obtain ⟨rfl, s, t, re⟩ := Stmt.runs_expr r₁
      exact .expr (Expr.typing_of_runs re hc hk hp.left) (ih r₂ hc hk hp.right)
    case hole => cases r₁.eq

end Closed

namespace Context

variable {c : Context} {env env' : TypeEnv} {e : Expr} {t : Ty} {p : Program}

theorem supply_start (hc : env.Closed) : (c.start env).supply = {} := by
  have : env.freeVars.members = [] := List.eq_nil_iff_forall_not_mem.mpr hc
  simp [start, clear, Supply.skipPast, SortedSet.max?, this]

theorem reaches_of_varCount {m : Supply} (hc : env.Closed) (hm : m.count < 2 ^ 63)
    (h : (c.start env).supply.LeadsTo m) : (c.start env).supply.Reaches m := by
  refine .of_leadsTo h ?_
  rw [supply_start hc]
  simpa using Int.ofNat_lt.mpr hm

theorem infer_of_ok {s : Subst} {u : Ty} {m : Supply}
    (h : e.infer env (c.start env).supply = .ok (s, u) m) :
    c.infer env e = (.ok (s.apply u), { c.start env with supply := m }) := by
  have he : e ≠ .hole none := by
    rintro rfl
    cases h
  rw [infer, h]
  exact he

theorem infer_of_error_of_ne {f : Failure} {m : Supply} (he : e ≠ .hole none)
    (h : e.infer env (c.start env).supply = .error f m) :
    c.infer env e = (.error f.error,
      { c.start env with supply := m, error := some f.error, invalidExpr := f.culprit }) := by
  rw [infer, h]
  exact he

theorem infer_of_error {f : Failure} {m : Supply}
    (h : e.infer env (c.start env).supply = .error f m) :
    ∃ err, (c.infer env e).1 = .error err ∧ (c.infer env e).2.supply = m := by
  by_cases he : e = .hole none
  case pos =>
    subst he
    cases h
    exact ⟨_, rfl, rfl⟩
  case neg =>
    rw [infer_of_error_of_ne he h]
    exact ⟨_, rfl, rfl⟩

theorem fits_of_varCount (hc : env.Closed) (hw : (c.infer env e).2.varCount < 2 ^ 63) :
    Fits (e.infer env) (c.start env).supply := by
  refine reaches_of_varCount hc ?_ (e.grows_infer env _)
  cases he : e.infer env (c.start env).supply
  case ok r m =>
    rw [infer_of_ok he] at hw
    rwa [final_of_ok he]
  case error f m =>
    have ⟨_, _, hm⟩ := infer_of_error he
    rw [varCount, hm] at hw
    simpa [final, he] using hw

theorem runs_of_infer (hc : env.Closed) (h : (c.infer env e).1 = .ok t)
    (hw : (c.infer env e).2.varCount < 2 ^ 63) :
    ∃ s u m, Runs (e.infer env) (c.start env).supply (s, u) m ∧ t = s.apply u := by
  cases he : e.infer env (c.start env).supply
  case ok r m =>
    obtain ⟨s, u⟩ := r
    rw [infer_of_ok he] at h
    cases h
    exact ⟨s, u, m, (fits_of_varCount hc hw).runs he, rfl⟩
  case error f m =>
    have ⟨err, herr, _⟩ := infer_of_error he
    cases herr.symm.trans h

theorem runs_of_inferProgram (hc : env.Closed) (h : (c.inferProgram env p).1 = .ok env')
    (hw : (c.inferProgram env p).2.varCount < 2 ^ 63) :
    ∃ m, Runs (Program.infer env 0 p) (c.start env).supply env' m := by
  rw [inferProgram] at h hw
  cases he : Program.infer env 0 p (c.start env).supply <;> rw [he] at h hw <;> cases h
  case ok m =>
    have grows := (p.grows_infer env 0).leadsTo he
    exact ⟨m, he, reaches_of_varCount hc hw grows⟩

-- Inference is sound: the type that is found is a type of the expression, and the environment that
-- is found for a program is one that its declarations lead to.
theorem inference_sound (c : Context) (env : TypeEnv) (hc : env.Closed) :
    (∀ e t, e.PatternsFresh env.names → (c.infer env e).1 = .ok t →
      (c.infer env e).2.varCount < 2 ^ 63 → e.Typing env t) ∧
    (∀ p env', Program.PatternsFresh env.names p → (c.inferProgram env p).1 = .ok env' →
      (c.inferProgram env p).2.varCount < 2 ^ 63 → Program.Typing env p env') := by
  constructor
  case left =>
    intro e t hp h hw
    obtain ⟨s, u, m, hr, rfl⟩ := runs_of_infer hc h hw
    exact Expr.typing_of_runs hr hc (fun _ => id) hp
  case right =>
    intro p env' hp h hw
    have ⟨m, hr⟩ := runs_of_inferProgram hc h hw
    exact Program.typing_of_runs hr hc (fun _ => id) hp

-- `let f = fun (x :: _) -> x in (f [1], f [true])`
def headTwice : Expr :=
  .letIn "f" (.lam (.cons (.var "x") .wildcard) (.var "x"))
    (.tuple [.app (.var "f") (.list [.int 1]), .app (.var "f") (.list [.bool true])])

-- `let rec length = fun xs -> match xs with [] -> 0 | _ :: ys -> 1 + length ys`, and a call of it.
def lengthProgram : Program :=
  [.declRec "length" (.lam (.var "xs") (.cases (.var "xs")
    [(.nil, .int 0), (.cons .wildcard (.var "ys"),
      .binop (some .add) (.int 1) (.app (.var "length") (.var "ys")))])),
    .expr (.app (.var "length") (.list [.int 1]))]

theorem inference_sound_length :
    headTwice.Typing ∅ (.tuple [.int, .bool]) ∧
      ∃ env, (inferProgram {} ∅ lengthProgram).1 = .ok env ∧ Program.Typing ∅ lengthProgram env := by
  have closed : TypeEnv.Closed ∅ := fun x => SortedSet.not_mem_empty x
  have none : TypeEnv.names ∅ = [] := rfl
  have ⟨exprs, programs⟩ := inference_sound {} ∅ closed
  constructor
  case left =>
    refine exprs headTwice (.tuple [.int, .bool]) ?_ (by cbv) (by cbv)
    rw [none]
    exact ⟨⟨⟨by decide, by decide⟩, trivial⟩, ⟨trivial, trivial, trivial⟩,
      ⟨trivial, trivial, trivial⟩, trivial⟩
  case right =>
    have ok : (inferProgram {} ∅ lengthProgram).1.isOk := by cbv
    cases h : (inferProgram {} ∅ lengthProgram).1
    case error => cases h ▸ ok
    case ok env =>
      refine ⟨env, rfl, programs lengthProgram env ?_ h (by cbv)⟩
      rw [none]
      exact ⟨⟨⟨by decide, by decide⟩, trivial, ⟨⟨⟨by decide, by decide⟩, trivial⟩,
        ⟨⟨by decide, by decide⟩, trivial, trivial, trivial⟩, trivial⟩⟩, ⟨trivial, trivial, trivial⟩,
        trivial⟩

end Context

end HindleyMilner
