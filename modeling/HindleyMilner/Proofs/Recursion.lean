import HindleyMilner.Proofs.Apart

namespace HindleyMilner

namespace Equation

variable {d e : Equation} {es es' : List Equation} {s : Subst} {x : TyVar} {t : Ty}

def apply (s : Subst) (e : Equation) : Equation :=
  (s.apply e.1, s.apply e.2)

@[simp]
theorem map_apply_empty (es : List Equation) : es.map (apply ∅) = es := by
  have : apply ∅ = id := by
    funext e
    simp [apply]
  rw [this, List.map_id]

theorem get?_of_mem_vars_apply (hs : s.Solved) (hx : x ∈ (e.apply s).vars) : s.get? x = none :=
  (List.mem_append.mp hx).elim hs.get?_of_mem_apply hs.get?_of_mem_apply

theorem mem_vars_apply (hx : x ∈ (e.apply s).vars) : x ∈ e.vars ∨ s.Mentions x := by
  simp only [vars, apply, List.mem_append] at hx ⊢
  obtain hx | hx := hx
  · exact (Subst.mem_vars_apply hx).imp_left .inl
  · exact (Subst.mem_vars_apply hx).imp_left .inr

section Solve

theorem solve_nil : solve [] = .ok ∅ := by
  rw [solve]

theorem map_apply_replaceAll (s : Subst) (es : List Equation) (x : TyVar) (t : Ty) :
    (replaceAll es x t).map (apply s) = es.map (apply (s.insert x (s.apply t))) := by
  have same (u : Ty) : s.apply (u.replace x t) = (s.insert x (s.apply t)).apply u := by
    rw [Subst.apply, Ty.replace, Ty.subst_subst]
    refine Ty.subst_congr fun y _ => ?_
    rw [Subst.image_insert]
    split <;> simp [Subst.apply]
  simp [replaceAll, replace, apply, same, Function.comp_def]

theorem get?_of_mentions {u : Subst} (hs : s.Solved) (hu : solve (es.map (apply s)) = .ok u)
    (hx : u.Mentions x) : s.get? x = none := by
  obtain ⟨_, he, hxe⟩ := List.mem_flatMap.mp (mem_vars_of_mentions hu x hx)
  obtain ⟨e, _, rfl⟩ := List.mem_map.mp he
  exact get?_of_mem_vars_apply hs hxe

theorem not_mentions_of_replaceAll {u : Subst} (hx : x ∉ t.vars) (hs : ¬s.Mentions x)
    (hu : solve ((replaceAll es x t).map (apply s)) = .ok u) : ¬u.Mentions x := by
  intro hm
  obtain ⟨_, he, hxe⟩ := List.mem_flatMap.mp (mem_vars_of_mentions hu x hm)
  obtain ⟨e, he', rfl⟩ := List.mem_map.mp he
  cases mem_vars_apply hxe
  case inl h => exact not_mem_vars_replaceAll hx (List.mem_flatMap.mpr ⟨e, he', h⟩)
  case inr h => exact hs h

theorem compose_insert {u : Subst} (hs : s.Solved) (hu : u.Solved) (hx : ¬s.Mentions x)
    (hxu : ¬u.Mentions x) (hxt : x ∉ t.vars) (h : ∀ y, u.Mentions y → s.get? y = none) :
    (s.insert x (s.apply t)).compose u = (s.compose u).map fun o => o.insert x (o.apply t) := by
  obtain ⟨o, ho, hget⟩ := Subst.compose_of_not_mentions hs hu h
  have apart : ∀ y, u.Mentions y → (s.insert x (s.apply t)).get? y = none := by
    intro y hy
    have : y ≠ x := fun hyx => hxu (hyx ▸ hy)
    simp [this, h y hy]
  obtain ⟨o', ho', hget'⟩ := Subst.compose_of_not_mentions (hs.insert hx hxt) hu apart
  have : o' = o.insert x (o.apply t) := by
    refine Subst.ext_get? fun y => ?_
    rw [hget', Subst.get?_insert, Subst.get?_insert, Subst.apply_compose hs hu h ho]
    split
    case isTrue => simp
    case isFalse => rw [hget]
  rw [ho, ho', this]
  rfl

theorem solve_append (es es' : List Equation) :
    solve (es ++ es') =
      solve es >>= fun s => solve (es'.map (apply s)) >>= fun u => s.compose u := by
  induction es using solve.induct generalizing es'
  case case1 =>
    rw [solve_nil, List.nil_append]
    change _ = solve (es'.map (apply ∅)) >>= fun u => Except.ok u
    rw [map_apply_empty]
    cases solve es' <;> rfl
  case case2 e es parts hr ih =>
    rw [List.cons_append, solve_of_split hr, solve_of_split hr, ← ih, List.append_assoc]
  case case3 e es x t hr hx =>
    rw [List.cons_append, solve_of_occurs hr (Ty.occurs_iff.mp hx),
      solve_of_occurs hr (Ty.occurs_iff.mp hx)]
    rfl
  case case4 e es x t hr hx ih =>
    replace hx := mt Ty.occurs_iff.mpr hx
    have : replaceAll (es ++ es') x t = replaceAll es x t ++ replaceAll es' x t := List.map_append
    rw [List.cons_append, solve_of_bind hr hx, solve_of_bind hr hx, this, ih]
    cases hs : solve (replaceAll es x t)
    case error => rfl
    case ok s =>
      change (solve ((replaceAll es' x t).map (apply s)) >>= fun u => s.compose u).map _ =
        solve (es'.map (apply (s.insert x (s.apply t)))) >>= fun u =>
          (s.insert x (s.apply t)).compose u
      rw [map_apply_replaceAll]
      cases hu : solve (es'.map (apply (s.insert x (s.apply t))))
      case error => rfl
      case ok u =>
        have hxs := not_mentions_of_solve_replaceAll hx hs
        rw [← map_apply_replaceAll] at hu
        have apart := fun y => get?_of_mentions (x := y) (solved_of_solve hs) hu
        exact (compose_insert (solved_of_solve hs) (solved_of_solve hu) hxs
          (not_mentions_of_replaceAll hx hxs hu) hx apart).symm
  case case5 e es hr =>
    rw [List.cons_append, solve_of_clash hr, solve_of_clash hr]
    rfl

theorem solve_compose_empty (es : List Equation) : solve es >>= (fun u => u.compose ∅) = solve es := by
  cases hs : solve es
  case error => rfl
  case ok s => exact Subst.compose_empty (solved_of_solve hs)

-- What `s` comes to when it is joined with `u`, found under it, and with what the equations come to
-- under both. It makes no difference which of these two are joined first.
theorem compose_solve {u : Subst} (hs : s.Solved) (hu : u.Solved)
    (free : ∀ x, u.Mentions x → s.get? x = none) (es : List Equation) :
    (solve ((es.map (apply s)).map (apply u)) >>= fun v => u.compose v) >>= (fun u => u.compose s) =
      u.compose s >>= fun o => solve (es.map (apply o)) >>= fun v => v.compose o := by
  obtain ⟨o, ho, -⟩ := Subst.compose_of_free hu hs free
  have both : (es.map (apply s)).map (apply u) = es.map (apply o) := by
    simp [apply, Subst.apply_compose_of_free hu hs free ho]
  rw [ho]
  change _ = solve (es.map (apply o)) >>= fun v => v.compose o
  cases hv : solve (es.map (apply o)) <;> rw [both, hv]
  case error => rfl
  case ok v =>
    have hvs := solved_of_solve hv
    rw [← both] at hv
    have apart : ∀ x, v.Mentions x → u.get? x = none := fun x => get?_of_mentions hu hv
    have apart' : ∀ x, v.Mentions x → s.get? x = none := by
      intro x hx
      obtain ⟨_, he, hxe⟩ := List.mem_flatMap.mp (mem_vars_of_mentions hv x hx)
      obtain ⟨_, he', rfl⟩ := List.mem_map.mp he
      obtain ⟨e, _, rfl⟩ := List.mem_map.mp he'
      exact (mem_vars_apply hxe).elim (get?_of_mem_vars_apply hs) (free x)
    obtain ⟨o', ho', -⟩ := Subst.compose_of_not_mentions hu hvs apart
    change u.compose v >>= (fun u => u.compose s) = v.compose o
    rw [ho']
    exact (Subst.compose_compose hs hu hvs free apart' apart ho ho').symm

theorem solve_cons_compose (hs : s.Solved) (d : Equation) (es : List Equation) :
    solve ((d :: es).map (apply s)) >>= (fun u => u.compose s) =
      unify (s.apply d.1) (s.apply d.2) >>= fun u => u.compose s >>= fun o =>
        solve (es.map (apply o)) >>= fun v => v.compose o := by
  have split : solve ((d :: es).map (apply s)) = unify (s.apply d.1) (s.apply d.2) >>= fun u =>
      solve ((es.map (apply s)).map (apply u)) >>= fun v => u.compose v :=
    solve_append [d.apply s] (es.map (apply s))
  rw [split]
  cases hu : unify (s.apply d.1) (s.apply d.2)
  case error => rfl
  case ok u =>
    refine compose_solve hs (solved_of_unify hu) (fun x hx => ?_) es
    exact (mentions_unify hu hx).elim hs.get?_of_mem_apply hs.get?_of_mem_apply

end Solve

section Lighter

-- There are fewer variables, or else the types are smaller.
def Lighter (d e : Equation) : Prop :=
  Prod.Lex (· < ·) (· < ·) (varCount [d], d.size) (varCount [e], e.size)

theorem lighter_induction {P : Equation → Prop} (h : ∀ e, (∀ d, Lighter d e → P d) → P e)
    (e : Equation) : P e :=
  (InvImage.wf (fun e : Equation => (varCount [e], e.size))
    (WellFounded.prod_lex Nat.lt_wfRel.wf Nat.lt_wfRel.wf)).induction e h

structure IsPart (d e : Equation) : Prop where
  size_lt : d.size < e.size
  vars_sub : ∀ x ∈ d.vars, x ∈ e.vars

theorem isPart_of_reduce {parts : List Equation} (h : e.reduce = .split parts) (hd : d ∈ parts) :
    d.IsPart e where
  size_lt := by
    have size_le {parts : List Equation} (hd : d ∈ parts) : d.size ≤ totalSize parts := by
      induction hd
      case head => exact Nat.le_add_right _ _
      case tail ih => exact Nat.le_add_left_of_le ih
    exact Nat.lt_of_le_of_lt (size_le hd) (size_of_reduce_split h)
  vars_sub x hx := vars_of_reduce_split h (List.mem_flatMap.mpr ⟨d, hd, hx⟩)

theorem IsPart.lighter (h : d.IsPart e) : d.Lighter e :=
  Prod.Lex.right' _ (varCount_le (by simpa using h.vars_sub)) h.size_lt

theorem IsPart.lighter_apply (h : d.IsPart e) (hs : s.Solved) (hm : ∀ x, s.Mentions x → x ∈ e.vars) :
    (d.apply s).Lighter e := by
  by_cases hk : ∃ x t, s.get? x = some t
  case pos =>
    obtain ⟨x, t, hx⟩ := hk
    have sub : ∀ y ∈ (d.apply s).vars, y ∈ e.vars :=
      fun y hy => (mem_vars_apply hy).elim (h.vars_sub y) (hm y)
    have gone : x ∉ (d.apply s).vars := fun hn => by simp [get?_of_mem_vars_apply hs hn] at hx
    exact .left _ _ (varCount_lt (x := x) (by simpa using sub) (by simpa using hm x (.key hx))
      (by simpa using gone))
  case neg =>
    have unbound (x : TyVar) : s.get? x = none :=
      Option.eq_none_iff_forall_ne_some.mpr fun t ht => hk ⟨x, t, ht⟩
    have same (t : Ty) : s.apply t = t := Subst.apply_eq_self fun x _ => unbound x
    simpa [apply, same] using h.lighter

end Lighter

end Equation

section Unify

open Equation

variable {a b t : Ty} {x : TyVar}

theorem unify_of_split {parts : List Equation} (h : reduce (a, b) = .split parts) :
    unify a b = solve parts := by
  rw [unify, solve_of_split h, List.append_nil]

theorem unify_of_bind (h : reduce (a, b) = .bind x t) : unify a b = Subst.singleton x t := by
  have hv := ne_var_of_reduce_bind h
  by_cases hx : x ∈ t.vars
  case pos =>
    rw [unify, solve_of_occurs h hx]
    simp [Subst.singleton, hv, Ty.occurs_iff.mpr hx]
  case neg =>
    rw [unify, solve_of_bind h hx]
    simp [Subst.singleton, hv, Ty.occurs_iff, hx, replaceAll, solve_nil, Except.map]

theorem unify_of_clash (h : reduce (a, b) = .clash) : unify a b = .error (.mismatch a b) :=
  solve_of_clash h

theorem unify_var (x : TyVar) (b : Ty) : unify (.var x) b = Subst.singleton x b := by
  by_cases h : b = .var x
  case pos =>
    have hr : reduce (.var x, b) = .split [] := by simp [reduce, h]
    rw [unify_of_split hr, solve_nil]
    simp [Subst.singleton, h]
  case neg => exact unify_of_bind (by simp [reduce, h])

end Unify

namespace Recursion

-- Unifying types, composing substitutions and extending one of them call each other, and their
-- arguments grow on the way.
inductive Call where
  | unify (a b : Ty)
  | extend (s : Subst) (x : TyVar) (t : Ty)
  | compose (s₁ s₂ : Subst)

-- What a procedure has left to do: to return, or to make a call and go on with what comes back. If
-- the call fails, so does the procedure.
inductive Body where
  | done (r : Except UnifyError Subst)
  | call (c : Call) (next : Subst → Body)

namespace Body

def equations (s : Subst) : List Equation → Body
  | [] => .done (.ok s)
  | (a, b) :: es =>
    .call (.unify (s.apply a) (s.apply b)) fun u => .call (.compose u s) fun s => equations s es

def bindings (s : Subst) : List (TyVar × Ty) → Body
  | [] => .done (.ok s)
  | (x, t) :: bs => .call (.extend s x t) fun s => bindings s bs

def unify : Ty → Ty → Body
  | .var x, b => .done (Subst.singleton x b)
  | a, .var x => .done (Subst.singleton x a)
  | .const m, .const n =>
    .done (if m = n then .ok ∅ else .error (.mismatch (.const m) (.const n)))
  | .arrow a r, .arrow a' r' =>
    .call (.unify a a') fun s₁ => .call (.unify (s₁.apply r) (s₁.apply r')) fun s₂ =>
      .call (.compose s₁ s₂) fun s => .done (.ok s)
  | .list e, .list e' => .call (.unify e e') fun s => .done (.ok s)
  | .tuple ts, .tuple us =>
    if ts.length = us.length then equations ∅ (ts.zip us).reverse
    else .done (.error (.mismatch (.tuple ts) (.tuple us)))
  | a, b => .done (.error (.mismatch a b))

def extend (s : Subst) (x : TyVar) (t : Ty) : Body :=
  match s.get? x with
  | some bound =>
    .call (.unify (s.apply t) bound) fun u => .call (.compose u s) fun s => .done (.ok s)
  | none => .done (s.bind x t)

def compose (s₁ s₂ : Subst) : Body :=
  bindings s₂ s₁.entries

end Body

def Call.body : Call → Body
  | .unify a b => .unify a b
  | .extend s x t => .extend s x t
  | .compose s₁ s₂ => .compose s₁ s₂

namespace Body

-- The procedure comes to an end with the result `r`. The calls `cs` are made on the way, by itself
-- or in the calls that it makes. There is no derivation for a procedure that goes on forever.
inductive Ends : Body → List Call → Except UnifyError Subst → Prop
  | done {r : Except UnifyError Subst} : Ends (.done r) [] r
  | call {c : Call} {next : Subst → Body} {s : Subst} {cs ds : List Call}
    {r : Except UnifyError Subst} (hc : Ends c.body cs (.ok s)) (hn : Ends (next s) ds r) :
    Ends (.call c next) (c :: cs ++ ds) r
  | fail {c : Call} {next : Subst → Body} {e : UnifyError} {cs : List Call}
    (hc : Ends c.body cs (.error e)) : Ends (.call c next) (c :: cs) (.error e)

theorem Ends.deterministic {p : Body} {cs ds : List Call} {r r' : Except UnifyError Subst}
    (h : p.Ends cs r) (h' : p.Ends ds r') : cs = ds ∧ r = r' := by
  induction h generalizing ds r'
  case done =>
    cases h'
    exact ⟨rfl, rfl⟩
  case call ihc ihn =>
    cases h'
    case call hc hn =>
      obtain ⟨rfl, he⟩ := ihc hc
      cases he
      obtain ⟨rfl, rfl⟩ := ihn hn
      exact ⟨rfl, rfl⟩
    case fail hc => cases (ihc hc).right
  case fail ihc =>
    cases h'
    case call hc hn => cases (ihc hc).right
    case fail hc =>
      obtain ⟨rfl, he⟩ := ihc hc
      cases he
      exact ⟨rfl, rfl⟩

def Returns (P : Call → Prop) (p : Body) (r : Except UnifyError Subst) : Prop :=
  ∃ cs, p.Ends cs r ∧ ∀ c ∈ cs, P c

namespace Returns

variable {P Q : Call → Prop} {p : Body} {c : Call} {next : Subst → Body} {s : Subst}
  {r : Except UnifyError Subst} {f : Subst → Except UnifyError Subst}

theorem done : Returns P (.done r) r :=
  ⟨[], .done, List.forall_mem_nil P⟩

theorem call (hc : P c) (hr : Returns P c.body r) (hn : ∀ s, r = .ok s → Returns P (next s) (f s)) :
    Returns P (.call c next) (r >>= f) := by
  obtain ⟨cs, hcs, hP⟩ := hr
  cases r
  case error e => exact ⟨c :: cs, .fail hcs, List.forall_mem_cons.mpr ⟨hc, hP⟩⟩
  case ok s =>
    obtain ⟨ds, hds, hQ⟩ := hn s rfl
    refine ⟨c :: cs ++ ds, .call hcs hds, List.forall_mem_append.mpr ⟨?_, hQ⟩⟩
    exact List.forall_mem_cons.mpr ⟨hc, hP⟩

theorem last (hc : P c) (hr : Returns P c.body r) : Returns P (.call c fun s => .done (.ok s)) r := by
  have : Returns P (.call c fun s => .done (.ok s)) (r >>= .ok) := hr.call hc fun _ _ => done
  cases r <;> exact this

theorem mono (h : Returns P p r) (hPQ : ∀ c, P c → Q c) : Returns Q p r := by
  obtain ⟨cs, hcs, hP⟩ := h
  exact ⟨cs, hcs, fun c hc => hPQ c (hP c hc)⟩

end Returns

end Body

def Call.Fresh : Call → Prop
  | .extend s x _ => s.get? x = none
  | .unify _ _ | .compose _ _ => True

open Call (Fresh)

variable {s s₁ s₂ u : Subst} {x : TyVar} {t : Ty} {bs : List (TyVar × Ty)}

theorem returns_bindings_of_unbound (hs : s.Solved) (hk : ∀ b ∈ bs, s.get? b.1 = none)
    (hd : bs.Pairwise (·.1 ≠ ·.1)) :
    Body.Returns Fresh (.bindings s bs) (bs.foldlM (fun s (x, t) => s.extend x t) s) := by
  induction bs generalizing s
  case nil => exact .done
  case cons b bs ih =>
    obtain ⟨x, t⟩ := b
    obtain ⟨hx, hbs⟩ := List.forall_mem_cons.mp hk
    obtain ⟨hxd, hd⟩ := List.pairwise_cons.mp hd
    have first : (Call.extend s x t).body.Returns Fresh (s.extend x t) := by
      simp only [Call.body, Body.extend, Subst.extend, hx]
      exact .done
    refine first.call hx fun o ho => ih (Subst.extend_join hs |>.solved ho) (fun c hc => ?_) hd
    have ho : s.bind x t = .ok o := Subst.extend_of_unbound hx ▸ ho
    exact Subst.get?_bind hs ho (hbs c hc) (hxd c hc).symm

theorem returns_compose_of_unbound (hs : s.Solved) (h : ∀ x t, u.get? x = some t → s.get? x = none) :
    (Call.compose u s).body.Returns Fresh (u.compose s) :=
  returns_bindings_of_unbound hs (fun b hb => h b.1 b.2 (Subst.mem_entries_iff.mp hb))
    u.entries_pairwise_ne

section UnifyCall

open Equation

variable {e : Equation}

section Parts

variable (ih : ∀ d : Equation, d.Lighter e → (Call.unify d.1 d.2).body.Returns Fresh (unify d.1 d.2))
include ih

theorem returns_equations {es : List Equation} (hes : ∀ d ∈ es, d.IsPart e) (hs : s.Solved)
    (hm : ∀ x, s.Mentions x → x ∈ e.vars) :
    Body.Returns Fresh (.equations s es) (solve (es.map (apply s)) >>= fun u => u.compose s) := by
  induction es generalizing s
  case nil =>
    rw [List.map_nil, solve_nil]
    exact .done
  case cons d es ihs =>
    obtain ⟨hd, hes⟩ := List.forall_mem_cons.mp hes
    rw [solve_cons_compose hs]
    refine (ih (d.apply s) (hd.lighter_apply hs hm)).call trivial fun u hu => ?_
    have hu {x : TyVar} (hx : u.Mentions x) : x ∈ (d.apply s).vars :=
      List.mem_append.mpr (mentions_unify hu hx)
    have unbound (x : TyVar) (t : Ty) (hx : u.get? x = some t) : s.get? x = none :=
      get?_of_mem_vars_apply hs (hu (.key hx))
    refine (returns_compose_of_unbound hs unbound).call trivial fun o ho => ?_
    have join := Subst.compose_join u hs
    refine ihs hes (join.solved ho) fun x hx => ?_
    cases join.mentions ho hx
    case inl hx => exact (mem_vars_apply (hu hx)).elim (hd.vars_sub x) (hm x)
    case inr hx => exact hm x hx

-- The second equation is solved under the solution of the first, which has no say in it any more.
theorem returns_arrow {a r a' r' : Ty} (ha : IsPart (a, a') e) (hr : IsPart (r, r') e) :
    Body.Returns Fresh
      (.call (.unify a a') fun s₁ => .call (.unify (s₁.apply r) (s₁.apply r')) fun s₂ =>
        .call (.compose s₁ s₂) fun s => .done (.ok s))
      (solve [(a, a'), (r, r')]) := by
  have split : solve [(a, a'), (r, r')] = unify a a' >>= fun s₁ =>
      unify (s₁.apply r) (s₁.apply r') >>= fun s₂ => s₁.compose s₂ :=
    solve_append [(a, a')] [(r, r')]
  rw [split]
  refine (ih (a, a') ha.lighter).call trivial fun s₁ h₁ => ?_
  have hs₁ := solved_of_unify h₁
  have known (x : TyVar) (hx : s₁.Mentions x) : x ∈ e.vars :=
    ha.vars_sub x (List.mem_append.mpr (mentions_unify h₁ hx))
  refine (ih (apply s₁ (r, r')) (hr.lighter_apply hs₁ known)).call trivial fun s₂ h₂ => ?_
  refine .last trivial (returns_compose_of_unbound (solved_of_unify h₂) fun x t hx => ?_)
  refine Subst.get?_of_not_mentions fun hm => ?_
  have := (mentions_unify h₂ hm).elim hs₁.get?_of_mem_apply hs₁.get?_of_mem_apply
  simp [hx] at this

end Parts

theorem returns_unify (e : Equation) : (Call.unify e.1 e.2).body.Returns Fresh (unify e.1 e.2) := by
  induction e using lighter_induction with | h e ih =>
  obtain ⟨a, b⟩ := e
  change (Body.unify a b).Returns Fresh (unify a b)
  cases a
  case var x =>
    rw [unify_var]
    exact .done
  all_goals cases b
  case const.const m n =>
    rw [Body.unify]
    split
    case isTrue h =>
      have hr : reduce (.const m, .const n) = .split [] := by simp [reduce, h]
      rw [unify_of_split hr, solve_nil]
      exact .done
    case isFalse h =>
      rw [unify_of_clash (by simp [reduce, h])]
      exact .done
  case arrow.arrow a r a' r' =>
    have part {d : Equation} := isPart_of_reduce (e := (.arrow a r, .arrow a' r')) (d := d) rfl
    rw [unify_of_split rfl]
    exact returns_arrow ih (part (by simp)) (part (by simp))
  case list.list t t' =>
    have part {d : Equation} := isPart_of_reduce (e := (.list t, .list t')) (d := d) rfl
    rw [unify_of_split rfl]
    exact .last trivial (ih (t, t') (part (by simp)).lighter)
  case tuple.tuple ts us =>
    rw [Body.unify]
    split
    case isTrue h =>
      have hr : reduce (.tuple ts, .tuple us) = .split (ts.zip us).reverse := by simp [reduce, h]
      have := returns_equations ih (fun d => isPart_of_reduce hr) .empty fun x hx =>
        absurd hx (Subst.not_mentions_empty x)
      rwa [map_apply_empty, solve_compose_empty, ← unify_of_split hr] at this
    case isFalse h =>
      rw [unify_of_clash (by simp [reduce, h])]
      exact .done
  case const.var | arrow.var | list.var | tuple.var | hole.var =>
    rw [unify_of_bind rfl]
    exact .done
  -- The types are of different kinds, or one of them is a hole.
  all_goals
    rw [unify_of_clash rfl]
    exact .done

end UnifyCall

theorem returns_extend (hs : s.Solved) (x : TyVar) (t : Ty) :
    (Call.extend s x t).body.Returns Fresh (s.extend x t) := by
  change (Body.extend s x t).Returns Fresh (s.extend x t)
  rw [Body.extend, Subst.extend]
  cases hx : s.get? x
  case none => exact .done
  case some bound =>
    refine (returns_unify (s.apply t, bound)).call trivial fun u hu => ?_
    have unbound (y : TyVar) (v : Ty) (hy : u.get? y = some v) : s.get? y = none :=
      (mentions_unify hu (.key hy)).elim hs.get?_of_mem_apply (hs x bound hx y)
    rw [← Subst.extendAll_of_unbound hs (fun b hb => unbound b.1 b.2 (Subst.mem_entries_iff.mp hb))
      u.entries_pairwise_ne]
    exact .last trivial (returns_compose_of_unbound hs unbound)

theorem returns_compose (s₁ : Subst) (h₂ : s₂.Solved) :
    (Call.compose s₁ s₂).body.Returns (fun _ => True) (s₁.compose s₂) := by
  have bindings (bs : List (TyVar × Ty)) {s : Subst} (hs : s.Solved) :
      Body.Returns (fun _ => True) (.bindings s bs) (bs.foldlM (fun s (x, t) => s.extend x t) s) := by
    induction bs generalizing s
    case nil => exact .done
    case cons b bs ih =>
      have first := (returns_extend hs b.1 b.2).mono (Q := fun _ => True) fun _ _ => trivial
      exact first.call trivial fun o ho => ih (Subst.extend_join hs |>.solved ho)
  exact bindings s₁.entries h₂

theorem Body.Returns.unique {P : Call → Prop} {p : Body} {r : Except UnifyError Subst}
    (h : p.Returns P r) : ∃ made, (∀ cs r', p.Ends cs r' ↔ cs = made ∧ r' = r) ∧ ∀ c ∈ made, P c := by
  obtain ⟨made, hm, hP⟩ := h
  refine ⟨made, fun cs r' => ⟨fun h' => h'.deterministic hm, ?_⟩, hP⟩
  rintro ⟨rfl, rfl⟩
  exact hm

-- The procedures come to an end, whatever types they are given, as long as substitutions are
-- solved. While types are unified, no variable is bound twice. Where a new variable is bound, it
-- must not occur in its type, and this is the only check that can fail.
theorem recursion_ends :
    (∀ a b : Ty, ∃ made, (∀ cs r, (Call.unify a b).body.Ends cs r ↔ cs = made ∧ r = unify a b) ∧
      ∀ s x t, .extend s x t ∈ made → s.get? x = none) ∧
    (∀ (s : Subst) (x : TyVar) (t : Ty), s.Solved → ∃ made, ∀ cs r,
      (Call.extend s x t).body.Ends cs r ↔ cs = made ∧ r = s.extend x t) ∧
    (∀ s₁ s₂ : Subst, s₁.Solved → s₂.Solved → ∃ made, ∀ cs r,
      (Call.compose s₁ s₂).body.Ends cs r ↔ cs = made ∧ r = s₁.compose s₂) ∧
    ∀ (s : Subst) (x : TyVar) (t : Ty), s.Solved → s.get? x = none →
      ((∃ e, s.extend x t = .error e) ↔ (s.apply t).occurs x ∧ s.apply t ≠ .var x) ∧
      (∀ e, s.extend x t = .error e → e = .occurs x (s.apply t)) ∧
      ∀ k u, s.get? k = some u → Subst.recursion? x (s.apply t) k u = none := by
  refine ⟨fun a b => ?unify, fun s x t hs => ?extend, fun s₁ s₂ _ h₂ => ?compose,
    fun s x t hs hx => ?errors⟩
  case unify =>
    obtain ⟨made, ends, fresh⟩ := (returns_unify (a, b)).unique
    exact ⟨made, ends, fun s x t => fresh (.extend s x t)⟩
  case extend =>
    obtain ⟨made, ends, -⟩ := (returns_extend hs x t).unique
    exact ⟨made, ends⟩
  case compose =>
    obtain ⟨made, ends, -⟩ := (returns_compose s₁ h₂).unique
    exact ⟨made, ends⟩
  case errors =>
    rw [Subst.extend_of_unbound hx]
    simp only [Subst.bind_eq_error_iff hs, Ty.occurs_iff]
    exact ⟨by simp, fun _ h => h.right, fun _ _ => Subst.recursion?_eq_none hs⟩

def listOfOne : Subst :=
  (∅ : Subst).insert 0 (.list (.var 1))

theorem recursion_ends_listOfOne :
    (∃ made, (Call.extend listOfOne 0 (.list .int)).body.Ends made
      (listOfOne.extend 0 (.list .int))) ∧
    (listOfOne.extend 0 (.list .int)).map (·.entries) = .ok [(0, .list .int), (1, .int)] ∧
    listOfOne.extend 1 (.var 0) = .error (.occurs 1 (.list (.var 1))) := by
  have solved : listOfOne.Solved := by
    simpa [listOfOne] using
      Subst.Solved.empty.insert (t := .list (.var 1)) (Subst.not_mentions_empty 0) (by decide)
  obtain ⟨-, extend, -, errors⟩ := recursion_ends
  refine ⟨?_, by cbv, ?_⟩
  · obtain ⟨made, ends⟩ := extend listOfOne 0 (.list .int) solved
    exact ⟨made, (ends _ _).mpr ⟨rfl, rfl⟩⟩
  · have applied : listOfOne.apply (.var 0) = .list (.var 1) := by cbv
    obtain ⟨fails, error, -⟩ := errors listOfOne 1 (.var 0) solved (by cbv)
    rw [applied] at fails error
    obtain ⟨e, he⟩ := fails.mpr ⟨by cbv, by simp⟩
    rw [he, error e he]

end Recursion

end HindleyMilner
