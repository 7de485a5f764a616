import HindleyMilner.SortedMap
import Mathlib

namespace HindleyMilner.SortedMap

variable {κ ν : Type} [LE κ] [LT κ] [Std.LawfulOrderLT κ] [DecidableEq κ]
  {m m₁ m₂ : SortedMap κ ν} {k : κ} {v : ν}

theorem lookup_eq_some_iff {es : List (κ × ν)} (h : es.Pairwise (·.1 < ·.1)) :
    es.lookup k = some v ↔ (k, v) ∈ es := by
  induction es
  case nil => simp
  case cons e es ih =>
    have ⟨he, hes⟩ := List.pairwise_cons.mp h
    rw [List.lookup_cons, List.mem_cons]
    by_cases hk : k = e.1
    case pos =>
      subst hk
      have hn : (e.1, v) ∉ es := fun hm => Std.lt_irrefl (he (e.1, v) hm)
      simp [hn, Prod.ext_iff, eq_comm]
    case neg =>
      have hn : (k, v) ≠ e := fun h => hk (congrArg Prod.fst h)
      simp [beq_eq_false_iff_ne.mpr hk, hn, ih hes]

theorem mem_entries_iff : (k, v) ∈ m.entries ↔ m.get? k = some v :=
  lookup_eq_some_iff m.ascending |>.symm

theorem mem_keys_iff : k ∈ m.keys ↔ (m.get? k).isSome := by
  simp [keys, Option.isSome_iff_exists, ← mem_entries_iff]

theorem ext_get? [Std.IsLinearOrder κ] (h : ∀ k, m₁.get? k = m₂.get? k) : m₁ = m₂ := by
  have nodup (m : SortedMap κ ν) : m.entries.Nodup :=
    List.nodup_iff_pairwise_ne.mpr <| m.ascending.imp fun hlt he => by
      subst he
      exact Std.lt_irrefl hlt
  ext1
  refine List.Perm.eq_of_pairwise (fun a b _ _ hab hba => ?_) m₁.ascending m₂.ascending ?_
  · exact absurd (Std.lt_trans hab hba) Std.lt_irrefl
  · refine (List.perm_ext_iff_of_nodup (nodup m₁) (nodup m₂)).mpr fun (k, v) => ?_
    simp [mem_entries_iff, h]

omit [LE κ] [Std.LawfulOrderLT κ] in
@[simp]
theorem get?_erase (m : SortedMap κ ν) (k j : κ) :
    (m.erase k).get? j = if j = k then none else m.get? j := by
  by_cases h : j = k <;> simp [erase, h]

end HindleyMilner.SortedMap
