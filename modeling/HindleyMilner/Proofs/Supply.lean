import HindleyMilner.Failure
import Mathlib

namespace HindleyMilner

namespace Supply

variable {n n₁ m : Supply} {i j k : Nat} {x : TyVar}

@[simp]
theorem nth_zero (n : Supply) : n.nth 0 = n.next := by
  simp [nth]

@[simp]
theorem next_drop (n : Supply) (k : Nat) : (n.drop k).next = n.nth k :=
  rfl

@[simp]
theorem count_drop (n : Supply) (k : Nat) : (n.drop k).count = n.count + k :=
  rfl

@[simp]
theorem drop_zero (n : Supply) : n.drop 0 = n := by
  simp [drop]

@[simp]
theorem drop_drop (n : Supply) (j k : Nat) : (n.drop j).drop k = n.drop (j + k) := by
  simp [drop, nth, Int64.add_assoc, Nat.add_assoc]

theorem nth_drop (n : Supply) (k i : Nat) : (n.drop k).nth i = n.nth (k + i) := by
  rw [← next_drop, drop_drop, next_drop]

theorem toInt_nth (h : n.next.toInt + k < 2 ^ 63) : (n.nth k).toInt = n.next.toInt + k := by
  have hn := n.next.le_toInt
  rw [nth, Int64.toInt_add, Int64.toInt_ofNat', Int64.size, Int.add_bmod_bmod]
  exact Int.bmod_eq_of_le (by omega) (by omega)

def LeadsTo (n m : Supply) : Prop :=
  ∃ k, m = n.drop k

namespace LeadsTo

theorem refl (n : Supply) : n.LeadsTo n :=
  ⟨0, by simp⟩

theorem drop (n : Supply) (k : Nat) : n.LeadsTo (n.drop k) :=
  ⟨k, rfl⟩

theorem trans : n.LeadsTo n₁ → n₁.LeadsTo m → n.LeadsTo m := by
  rintro ⟨j, rfl⟩ ⟨k, rfl⟩
  exact ⟨j + k, by simp⟩

end LeadsTo

-- The numbers of the variables taken between `n` and `m`, and the next one, have not wrapped
-- around.
def Reaches (n m : Supply) : Prop :=
  ∃ k : Nat, m = n.drop k ∧ n.next.toInt + k < 2 ^ 63

namespace Reaches

theorem refl (n : Supply) : n.Reaches n :=
  ⟨0, by simp, by simpa using n.next.toInt_lt⟩

theorem of_leadsTo : n.LeadsTo m → n.next.toInt + (m.count - n.count : Nat) < 2 ^ 63 → n.Reaches m := by
  rintro ⟨k, rfl⟩ h
  exact ⟨k, rfl, by simpa using h⟩

theorem trans : n.Reaches n₁ → n₁.Reaches m → n.Reaches m := by
  rintro ⟨j, rfl, hj⟩ ⟨k, rfl, hk⟩
  rw [next_drop, toInt_nth hj] at hk
  exact ⟨j + k, by simp, by omega⟩

theorem split (h : n.Reaches m) : n.LeadsTo n₁ → n₁.LeadsTo m → n.Reaches n₁ ∧ n₁.Reaches m := by
  rintro ⟨j, rfl⟩ ⟨k, rfl⟩
  obtain ⟨l, hl, hw⟩ := h
  have hc := congrArg count hl
  simp only [count_drop] at hc
  have hj : n.next.toInt + j < 2 ^ 63 := by omega
  refine ⟨⟨j, rfl, hj⟩, k, rfl, ?_⟩
  rw [next_drop, toInt_nth hj]
  omega

theorem next_le : n.Reaches m → n.next ≤ m.next := by
  rintro ⟨k, rfl, hk⟩
  rw [next_drop, Int64.le_iff_toInt_le, toInt_nth hk]
  omega

theorem lt_next (h : n.Reaches m) (hx : x < n.next) : x < m.next :=
  Std.lt_of_lt_of_le hx h.next_le

theorem nth_inj (h : n.Reaches (n.drop k)) (hi : i < k) (hj : j < k) (hij : n.nth i = n.nth j) :
    i = j := by
  obtain ⟨l, hl, hw⟩ := h
  have hc := congrArg count hl
  have ht := congrArg Int64.toInt hij
  simp only [count_drop] at hc
  rw [toInt_nth (by omega), toInt_nth (by omega)] at ht
  omega

end Reaches

def Taken (n m : Supply) (x : TyVar) : Prop :=
  n.next ≤ x ∧ x < m.next

namespace Taken

theorem mono_left (h : n.Reaches n₁) (hx : n₁.Taken m x) : n.Taken m x :=
  ⟨Std.le_trans h.next_le hx.left, hx.right⟩

theorem mono_right (h : n₁.Reaches m) (hx : n.Taken n₁ x) : n.Taken m x :=
  ⟨hx.left, Std.lt_of_lt_of_le hx.right h.next_le⟩

theorem not_lt (hx : n.Taken m x) : ¬x < n.next :=
  Std.not_lt.mpr hx.left

theorem not_taken (hx : n.Taken n₁ x) : ¬n₁.Taken m x :=
  fun h => h.not_lt hx.right

theorem nth (h : n.Reaches (n.drop k)) (hi : i < k) : n.Taken (n.drop k) (n.nth i) := by
  obtain ⟨l, hl, hw⟩ := h
  have hc := congrArg count hl
  simp only [count_drop] at hc
  have ht := toInt_nth (n := n) (k := i) (by omega)
  constructor
  · rw [Int64.le_iff_toInt_le, ht]
    omega
  · rw [next_drop, Int64.lt_iff_toInt_lt, ht, toInt_nth (by omega)]
    omega

theorem next (h : n.Reaches (n.drop 1)) : n.Taken (n.drop 1) n.next := by
  simpa using nth h Nat.one_pos

end Taken

end Supply

namespace Infer

variable {ε ε' α β : Type} {x : Infer ε α} {f : α → Infer ε β} {n m : Supply} {a : α} {b : β}

def final (x : Infer ε α) (n : Supply) : Supply :=
  match x n with
  | .ok _ m => m
  | .error _ m => m

theorem final_of_ok (h : x n = .ok a m) : x.final n = m := by
  simp [final, h]

@[simp]
theorem final_mapError {g : ε → ε'} : (x.mapError g).final n = x.final n := by
  simp only [final, Infer.mapError]
  cases x n <;> rfl

def Grows (x : Infer ε α) : Prop :=
  ∀ n : Supply, n.LeadsTo (x.final n)

-- `x` runs from `n` to `m` and gives `a`, and the numbers of variables do not wrap around.
structure Runs (x : Infer ε α) (n : Supply) (a : α) (m : Supply) : Prop where
  eq : x n = .ok a m
  reaches : n.Reaches m

theorem Grows.leadsTo (hx : Grows x) (h : x n = .ok a m) : n.LeadsTo m :=
  final_of_ok h ▸ hx n

@[simp]
theorem bind_eq_ok_iff : (x >>= f) n = .ok b m ↔ ∃ a n₁, x n = .ok a n₁ ∧ f a n₁ = .ok b m := by
  simp only [bind, EStateM.bind]
  constructor
  case mp =>
    intro h
    cases hx : x n <;> rw [hx] at h
    case ok a n₁ => exact ⟨a, n₁, rfl, h⟩
    case error => cases h
  case mpr =>
    intro ⟨a, n₁, hx, h⟩
    rw [hx]
    exact h

theorem bind_of_ok {n₁ : Supply} (h : x n = .ok a n₁) : (x >>= f) n = f a n₁ := by
  simp [bind, EStateM.bind, h]

theorem bind_of_error {e : ε} (h : x n = .error e m) : (x >>= f) n = .error e m := by
  simp [bind, EStateM.bind, h]

theorem final_bind_of_ok {n₁ : Supply} (h : x n = .ok a n₁) :
    (x >>= f).final n = (f a).final n₁ := by
  rw [final, bind_of_ok h, final]

theorem final_bind_pure {g : α → β} : (x >>= fun a => pure (g a)).final n = x.final n := by
  simp only [final, bind, EStateM.bind]
  cases x n <;> rfl

theorem leadsTo_final_bind (hf : ∀ a, Grows (f a)) : (x.final n).LeadsTo ((x >>= f).final n) := by
  simp only [final, bind, EStateM.bind]
  cases x n
  case ok a n₁ => exact hf a n₁
  case error => exact .refl _

def Fits (x : Infer ε α) (n : Supply) : Prop :=
  n.Reaches (x.final n)

theorem Fits.runs (h : Fits x n) (hx : x n = .ok a m) : Runs x n a m :=
  ⟨hx, final_of_ok hx ▸ h⟩

theorem fits_bind (hx : Grows x) (hf : ∀ a, Grows (f a)) (h : Fits (x >>= f) n) :
    Fits x n ∧ ∀ a n₁, x n = .ok a n₁ → Fits (f a) n₁ := by
  have ⟨h₁, h₂⟩ := Supply.Reaches.split h (hx n) (leadsTo_final_bind hf)
  refine ⟨h₁, fun a n₁ ha => ?_⟩
  rwa [final_of_ok ha, final_bind_of_ok ha] at h₂

section Grows

@[simp, grind .]
theorem grows_pure : Grows (pure a : Infer ε α) :=
  .refl

@[simp, grind .]
theorem grows_throw {e : ε} : Grows (throw e : Infer ε α) :=
  .refl

@[grind ←]
theorem Grows.bind (hx : Grows x) (hf : ∀ a, Grows (f a)) : Grows (x >>= f) :=
  fun n => (hx n).trans (leadsTo_final_bind hf)

@[grind ←]
theorem Grows.mapError {g : ε → ε'} (hx : Grows x) : Grows (x.mapError g) := by
  intro n
  rw [final_mapError]
  exact hx n

@[simp, grind .]
theorem grows_freshTy : Grows (freshTy : Infer ε Ty) :=
  fun n => .drop n 1

@[simp, grind .]
theorem grows_require {e : Expr} {r : Except UnifyError α} : Grows (require e r) := by
  cases r <;> exact .refl

@[simp, grind .]
theorem grows_constraint {r : Except UnifyError α} : Grows (constraint r) := by
  cases r <;> exact .refl

end Grows

theorem fits_bind₂ {γ : Type} {g : α → β → Infer ε γ} (hx : Grows x) (hf : ∀ a, Grows (f a))
    (hg : ∀ a b, Grows (g a b)) (h : Fits (x >>= fun a => f a >>= g a) n) :
    Fits x n ∧ ∀ a n₁, x n = .ok a n₁ → Fits (f a) n₁ ∧
      ∀ b n₂, f a n₁ = .ok b n₂ → Fits (g a b) n₂ := by
  have ⟨h₁, h⟩ := fits_bind hx (fun a => (hf a).bind (hg a)) h
  exact ⟨h₁, fun a n₁ ha => fits_bind (hf a) (hg a) (h a n₁ ha)⟩

@[simp]
theorem fits_mapError {g : ε → ε'} : Fits (x.mapError g) n ↔ Fits x n := by
  rw [Fits, final_mapError, Fits]

section Ok

@[simp]
theorem pure_eq_ok_iff {a' : α} : (pure a : Infer ε α) n = .ok a' m ↔ a = a' ∧ n = m := by
  simp [pure, EStateM.pure]

@[simp]
theorem map_eq_ok_iff {g : α → β} : (g <$> x) n = .ok b m ↔ ∃ a, x n = .ok a m ∧ g a = b := by
  rw [← bind_pure_comp, bind_eq_ok_iff]
  simp

@[simp]
theorem throw_ne_ok {e : ε} : (throw e : Infer ε α) n ≠ .ok a m :=
  nofun

@[simp]
theorem modifyGet_eq_ok_iff {g : Supply → α × Supply} :
    (modifyGet g : Infer ε α) n = .ok a m ↔ (g n).1 = a ∧ (g n).2 = m := by
  simp [modifyGet, MonadStateOf.modifyGet, EStateM.modifyGet]

@[simp]
theorem fresh_eq_ok_iff {y : TyVar} :
    (Supply.fresh : Infer ε TyVar) n = .ok y m ↔ n.next = y ∧ n.drop 1 = m := by
  simp [Supply.fresh, bind, EStateM.bind, get, getThe, MonadStateOf.get, EStateM.get, set,
    EStateM.set, pure, EStateM.pure]

@[simp]
theorem freshTy_eq_ok_iff {t : Ty} :
    (freshTy : Infer ε Ty) n = .ok t m ↔ .var n.next = t ∧ n.drop 1 = m := by
  simp [freshTy, and_assoc, and_comm]

@[simp]
theorem mapError_eq_ok_iff {g : ε → ε'} : x.mapError g n = .ok a m ↔ x n = .ok a m := by
  rw [Infer.mapError]
  cases x n <;> simp

theorem mapError_of_error {g : ε → ε'} {e : ε} (h : x n = .error e m) :
    x.mapError g n = .error (g e) m := by
  rw [Infer.mapError, h]

@[simp]
theorem blaming_eq_ok_iff {x : Infer InferError α} {e : Expr} :
    blaming e x n = .ok a m ↔ x n = .ok a m :=
  mapError_eq_ok_iff

@[simp]
theorem constraint_eq_ok_iff {r : Except UnifyError α} :
    constraint r n = .ok a m ↔ r = .ok a ∧ n = m := by
  cases r <;> simp [constraint]

@[simp]
theorem require_eq_ok_iff {e : Expr} {r : Except UnifyError α} :
    require e r n = .ok a m ↔ r = .ok a ∧ n = m := by
  simp [require]

end Ok

section Ensures

variable {P : α → Prop} {Q : β → Prop}

def Ensures (P : α → Prop) (x : Infer ε α) : Prop :=
  ∀ n a m, x n = .ok a m → P a

namespace Ensures

theorem pure (h : P a) : Ensures P (pure a : Infer ε α) := by
  intro n b m hb
  simp only [pure_eq_ok_iff] at hb
  exact hb.left ▸ h

theorem throw {e : ε} : Ensures P (throw e : Infer ε α) :=
  fun _ _ _ h => absurd h throw_ne_ok

theorem bind (hx : Ensures P x) (hf : ∀ a, P a → Ensures Q (f a)) : Ensures Q (x >>= f) := by
  intro n b m h
  obtain ⟨a, n₁, ha, hb⟩ := bind_eq_ok_iff.mp h
  exact hf a (hx n a n₁ ha) n₁ b m hb

theorem after (x : Infer ε α) (hf : ∀ a, Ensures Q (f a)) : Ensures Q (x >>= f) :=
  bind (P := fun _ => True) (fun _ _ _ _ => trivial) fun a _ => hf a

theorem require (e : Expr) (r : Except UnifyError α) : Ensures (r = .ok ·) (require e r) :=
  fun _ _ _ h => (require_eq_ok_iff.mp h).left

end Ensures

end Ensures

section FailsOnly

variable {P : ε → Prop}

def FailsOnly (P : ε → Prop) (x : Infer ε α) : Prop :=
  ∀ n e m, x n = .error e m → P e

namespace FailsOnly

theorem pure : FailsOnly P (pure a : Infer ε α) :=
  nofun

theorem throw {e : ε} (h : P e) : FailsOnly P (throw e : Infer ε α) := by
  rintro n _ m ⟨⟩
  exact h

theorem bind_of_ensures {Q : α → Prop} (hx : FailsOnly P x) (hq : Ensures Q x)
    (hf : ∀ a, Q a → FailsOnly P (f a)) : FailsOnly P (x >>= f) := by
  intro n e m h
  simp only [Bind.bind, EStateM.bind] at h
  cases hn : x n <;> rw [hn] at h
  case ok b n₁ => exact hf b (hq n b n₁ hn) n₁ e m h
  case error =>
    cases h
    exact hx n e m hn

theorem bind (hx : FailsOnly P x) (hf : ∀ a, FailsOnly P (f a)) : FailsOnly P (x >>= f) :=
  hx.bind_of_ensures (Q := fun _ => True) (fun _ _ _ _ => trivial) fun a _ => hf a

theorem mapError {Q : ε' → Prop} {g : ε → ε'} (hx : FailsOnly P x) (hg : ∀ e, P e → Q (g e)) :
    FailsOnly Q (x.mapError g) := by
  intro n e m h
  rw [Infer.mapError] at h
  cases hn : x n <;> rw [hn] at h <;> cases h
  exact hg _ (hx n _ m hn)

theorem modifyGet {g : Supply → α × Supply} : FailsOnly P (modifyGet g : Infer ε α) :=
  nofun

theorem freshTy : FailsOnly P (freshTy : Infer ε Ty) :=
  nofun

theorem constraint {Q : InferError → Prop} {r : Except UnifyError α}
    (h : ∀ e, r = .error e → Q (.unify e)) : FailsOnly Q (constraint r) := by
  cases r
  case ok => exact pure
  case error e => exact throw (h e rfl)

theorem require {Q : Failure → Prop} {e : Expr} {r : Except UnifyError α}
    (h : ∀ err, r = .error err → Q ⟨.unify err, e⟩) : FailsOnly Q (require e r) :=
  mapError (P := fun err => Q ⟨err, e⟩) (constraint h) fun _ => id

theorem mono {Q : ε → Prop} (hx : FailsOnly P x) (h : ∀ e, P e → Q e) : FailsOnly Q x :=
  fun n e m he => h e (hx n e m he)

end FailsOnly

end FailsOnly

section Follows

variable {y : Infer ε α} {g : α → Infer ε β} {q : α → α → Prop} {r : β → β → Prop}

-- Both succeed, with results in the relation `q`, or both fail in the same way. The same variables
-- are taken.
inductive SameUpTo (q : α → α → Prop) :
    EStateM.Result ε Supply α → EStateM.Result ε Supply α → Prop
  | ok {a a' : α} {m : Supply} (h : q a a') : SameUpTo q (.ok a m) (.ok a' m)
  | error {e : ε} {m : Supply} : SameUpTo q (.error e m) (.error e m)

def Follows (q : α → α → Prop) (x y : Infer ε α) : Prop :=
  ∀ n, SameUpTo q (x n) (y n)

namespace Follows

theorem refl (h : ∀ a, q a a) (x : Infer ε α) : Follows q x x := by
  intro n
  cases x n
  case ok a m => exact .ok (h a)
  case error => exact .error

theorem pure {a a' : α} (h : q a a') : Follows q (pure a : Infer ε α) (pure a') :=
  fun _ => .ok h

theorem bind (hx : Follows q x y) (hf : ∀ a a', q a a' → Follows r (f a) (g a')) :
    Follows r (x >>= f) (y >>= g) := by
  intro n
  have h := hx n
  simp only [Bind.bind, EStateM.bind]
  generalize x n = a, y n = b at h ⊢
  cases h
  case ok ha => exact hf _ _ ha _
  case error => exact .error

theorem after (x : Infer ε α) (hf : ∀ a, Follows r (f a) (g a)) : Follows r (x >>= f) (x >>= g) :=
  (refl (fun _ => rfl) x).bind fun a _ h => h ▸ hf a

theorem mapError (hx : Follows q x y) (g : ε → ε') : Follows q (x.mapError g) (y.mapError g) := by
  intro n
  have h := hx n
  rw [Infer.mapError, Infer.mapError]
  generalize x n = a, y n = b at h ⊢
  cases h
  case ok ha => exact .ok ha
  case error => exact .error

theorem exists_ok (h : Follows q x y) (hx : x n = .ok a m) : ∃ a', y n = .ok a' m ∧ q a a' := by
  have h := h n
  rw [hx] at h
  generalize y n = b at h ⊢
  cases h
  case ok a' ha => exact ⟨a', rfl, ha⟩

theorem eq (h : Follows Eq x y) : x = y := by
  funext n
  have h := h n
  generalize x n = a, y n = b at h ⊢
  cases h
  case ok h => rw [h]
  case error => rfl

theorem bind_eq (hx : Follows q x y) (hf : ∀ a a', q a a' → f a = g a') : x >>= f = y >>= g :=
  (hx.bind fun a a' ha => hf a a' ha ▸ refl (fun _ => rfl) (f a)).eq

end Follows

end Follows

end Infer

end HindleyMilner
