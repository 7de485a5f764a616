import HindleyMilner.Document.Value
import Mathlib

namespace HindleyMilner.Document

namespace Numeral

variable {c : Char} {cs : List Char} {n : Nat}

theorem digit?_of_isDigit (h : c.isDigit) : digit? 10 c = some (c.toNat - '0'.toNat) := by
  have bounds : '0' ≤ c ∧ c ≤ '9' := by
    rw [Char.le_def, Char.le_def]
    exact Char.isDigit_iff_toNat.mp h
  have small := (Char.isDigit_iff_toNat.mp h).right
  have nine : '9'.toNat = 57 := rfl
  have zero : '0'.toNat = 48 := rfl
  simp only [digit?, if_pos bounds, Option.filter_some]
  rw [if_pos (decide_eq_true (by omega))]

theorem foldlM_digit? (h : ∀ c ∈ cs, c.isDigit) (n : Nat) :
    cs.foldlM (fun n c => return 10 * n + (← digit? 10 c)) n = some (Nat.ofDigitChars 10 cs n) := by
  induction cs generalizing n
  case nil => rfl
  case cons c cs ih =>
    obtain ⟨hc, h⟩ := List.forall_mem_cons.mp h
    rw [List.foldlM_cons, digit?_of_isDigit hc, Nat.ofDigitChars_cons]
    exact ih h _

theorem isDigit_of_mem_toDigits (h : c ∈ Nat.toDigits 10 n) : c.isDigit :=
  Nat.isDigit_of_mem_toDigits (by decide) (by decide) h

theorem nat?_toDigits (n : Nat) : nat? 10 (Nat.toDigits 10 n) = some n := by
  rw [nat?, if_neg (by simp [Nat.toDigits_ne_nil]),
    foldlM_digit? (fun _ => isDigit_of_mem_toDigits), Nat.ofDigitChars_ten_toDigits]

theorem exists_toDigits_eq_cons (h : 0 < n) : ∃ c cs, Nat.toDigits 10 n = c :: cs ∧ c ≠ '0' := by
  induction n using Nat.strong_induction_on with | h n ih =>
  rw [Nat.toDigits_eq_if (by decide)]
  split
  case isTrue hn =>
    refine ⟨_, _, rfl, fun hz => ?_⟩
    rw [Nat.digitChar_eq_zero] at hz
    omega
  case isFalse hn =>
    obtain ⟨c, cs, hcs, hc⟩ := ih (n / 10) (by omega) (by omega)
    exact ⟨c, cs ++ _, by rw [hcs]; rfl, hc⟩

theorem prefixed?_toDigits (n : Nat) : prefixed? (Nat.toDigits 10 n) = some n := by
  obtain rfl | hn := Nat.eq_zero_or_pos n
  · rfl
  · obtain ⟨c, cs, hcs, hc⟩ := exists_toDigits_eq_cons hn
    have read := nat?_toDigits n
    rw [hcs] at read ⊢
    rw [prefixed?]
    · exact read
    · simp [hc]
    · simp [hc]
    · simp [hc]

theorem splitSign_toDigits (n : Nat) :
    splitSign (Nat.toDigits 10 n) = (false, Nat.toDigits 10 n) := by
  unfold splitSign
  split
  case h_1 h => cases isDigit_of_mem_toDigits (h ▸ List.mem_cons_self)
  case h_2 h => cases isDigit_of_mem_toDigits (h ▸ List.mem_cons_self)
  case h_3 => rfl

theorem toList_toString_of_nonneg {n : Int} (h : 0 ≤ n) :
    (toString n).toList = Nat.toDigits 10 n.toNat := by
  rw [Int.toString_eq_repr, Int.repr_eq_if, if_pos h, Nat.repr_eq_ofList_toDigits,
    String.toList_ofList]

theorem toList_toString_of_neg {n : Int} (h : n < 0) :
    (toString n).toList = '-' :: Nat.toDigits 10 (-n).toNat := by
  rw [Int.toString_eq_repr, Int.repr_eq_if, if_neg (by omega), Nat.repr_eq_ofList_toDigits]
  simp

theorem int?_toString {n : Int} (h : IsInt64 n) : int? (toString n).toList = some n := by
  have read : signed? prefixed? (toString n).toList = some n := by
    rw [signed?]
    by_cases hn : 0 ≤ n
    case pos =>
      rw [toList_toString_of_nonneg hn, splitSign_toDigits]
      simp [prefixed?_toDigits, withSign, hn, h]
    case neg =>
      have value : -((-n).toNat : Int) = n := by omega
      rw [toList_toString_of_neg (by omega)]
      simp only [splitSign, prefixed?_toDigits, withSign, if_true, Option.bind_eq_bind,
        Option.bind_some, value, if_pos h]
  rw [int?, read]
  rfl

theorem exists_toString_eq_cons (n : Int) :
    ∃ c cs, (toString n).toList = c :: cs ∧ (c.isDigit ∨ c = '-') ∧
      (∃ d ∈ c :: cs, d.isDigit) ∧ '_' ∉ c :: cs := by
  by_cases hn : 0 ≤ n
  case pos =>
    obtain ⟨c, cs, hcs⟩ := List.exists_cons_of_ne_nil (@Nat.toDigits_ne_nil n.toNat 10)
    have digit : c.isDigit := isDigit_of_mem_toDigits (hcs ▸ List.mem_cons_self)
    refine ⟨c, cs, (toList_toString_of_nonneg hn).trans hcs, .inl digit, ⟨c, by simp, digit⟩, ?_⟩
    exact hcs ▸ Nat.underscore_not_in_toDigits
  case neg =>
    obtain ⟨c, cs, hcs⟩ := List.exists_cons_of_ne_nil (@Nat.toDigits_ne_nil (-n).toNat 10)
    have digit : c.isDigit := isDigit_of_mem_toDigits (hcs ▸ List.mem_cons_self)
    refine ⟨'-', _, toList_toString_of_neg (by omega), .inr rfl, ⟨c, by simp [hcs], digit⟩, ?_⟩
    simp

end Numeral

namespace Value

open Numeral

theorem word?_of_mem {s : String} {c : Char} (hc : c ∈ s.toList) (hd : c.isDigit) :
    word? s = none := by
  have words {ws : List String} (h : (ws.flatMap String.toList).all (!·.isDigit)) : s ∉ ws := by
    intro hs
    have := List.all_eq_true.mp h c (List.mem_flatMap.mpr ⟨s, hs, hc⟩)
    simp [hd] at this
  rw [word?]
  iterate 6 rw [if_neg (words (by decide))]

theorem number?_toString {n : Int} (h : IsInt64 n) : number? (toString n) = some (.int n) := by
  obtain ⟨c, cs, hs, hc, _, plain⟩ := exists_toString_eq_cons n
  have read := int?_toString h
  have same : (c :: cs).filter (· ≠ '_') = c :: cs :=
    List.filter_eq_self.mpr fun d hd => decide_eq_true fun he => plain (he ▸ hd)
  rw [hs] at read
  rw [number?, hs]
  split
  case h_1 he =>
    cases he
    simp at hc
  case h_2 he =>
    cases he
    rw [if_pos (by simpa [or_assoc] using Or.imp_right Or.inr hc)]
    simp only [same, read]
    rfl
  case h_3 he => cases he

theorem ofPlain_toString (n : Int64) : ofPlain (toString n.toInt) = .int n.toInt := by
  obtain ⟨c, cs, hs, _, ⟨d, hd, digit⟩, _⟩ := exists_toString_eq_cons n.toInt
  rw [ofPlain, word?_of_mem (hs ▸ hd) digit, number?_toString ⟨?_, ?_⟩]
  · rfl
  · exact n.le_toInt
  · exact n.toInt_le

theorem ofPlain_toString_bool (b : Bool) : ofPlain (toString b) = .bool b := by
  cases b <;> rfl

end Value

end HindleyMilner.Document
