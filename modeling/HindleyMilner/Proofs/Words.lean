import HindleyMilner.Proofs.Numerals
import Mathlib

namespace HindleyMilner.Text

open Document.Numeral

def marks : List Char :=
  [' ', '(', ')', '[', ']', ',', ';']

def isMark (c : Char) : Bool :=
  c ∈ marks

def joins (a b : Char) : Bool :=
  !isMark a && !isMark b

def words (s : String) : List String :=
  (s.toList.splitBy joins).map String.ofList |>.filter (· ≠ " ")

-- Whatever stands before the text, its first word begins with the text.
def startsApart (s : String) : Bool :=
  s.toList.head?.all isMark

def endsApart (s : String) : Bool :=
  s.toList.getLast?.all isMark

def separates (s : String) : Bool :=
  s.toList.head?.any isMark && s.toList.getLast?.any isMark

def IsWord (s : String) : Prop :=
  s ≠ "" ∧ s.toList.all (!isMark ·)

instance (s : String) : Decidable (IsWord s) :=
  inferInstanceAs (Decidable (_ ∧ _))

variable {s t l : String}

theorem IsWord.not_isMark (h : IsWord s) {c : Char} (hc : c ∈ s.toList) : !isMark c :=
  List.all_eq_true.mp h.right c hc

theorem startsApart_append (hs : s ≠ "") (h : startsApart s) : startsApart (s ++ t) := by
  have : s.toList ≠ [] := mt String.toList_eq_nil_iff.mp hs
  rwa [startsApart, String.toList_append, List.head?_append_of_ne_nil _ this]

theorem words_append (h : ∀ a ∈ s.toList.getLast?, ∀ b ∈ t.toList.head?, joins a b = false) :
    words (s ++ t) = words s ++ words t := by
  rw [words, String.toList_append, List.splitBy_append h, List.map_append, List.filter_append]
  rfl

theorem words_append_of_starts (h : startsApart t) : words (s ++ t) = words s ++ words t := by
  refine words_append fun a _ b hb => ?_
  have mark : isMark b := by simpa [startsApart, Option.mem_def.mp hb] using h
  simp [joins, mark]

theorem words_append_of_ends (h : endsApart s) : words (s ++ t) = words s ++ words t := by
  refine words_append fun a ha b _ => ?_
  have mark : isMark a := by simpa [endsApart, Option.mem_def.mp ha] using h
  simp [joins, mark]

theorem words_between (h : separates l) : words (s ++ l ++ t) = words s ++ words l ++ words t := by
  obtain ⟨starts, ends⟩ := Bool.and_eq_true_iff.mp h
  obtain ⟨a, ha, first⟩ := (Option.any_eq_true _ _).mp starts
  obtain ⟨b, hb, last⟩ := (Option.any_eq_true _ _).mp ends
  have starts : startsApart l := by rw [startsApart, ha, Option.all_some, first]
  have ends : endsApart (s ++ l) := by
    rw [endsApart, String.toList_append, List.getLast?_append, hb, Option.some_or, Option.all_some,
      last]
  rw [words_append_of_ends ends, words_append_of_starts starts]

theorem words_paren (s : String) : words ("(" ++ s ++ ")") = "(" :: words s ++ [")"] := by
  rw [words_append_of_starts (by decide), words_append_of_ends (by decide)]
  rfl

theorem IsWord.words_eq (h : IsWord s) : words s = [s] := by
  have chain : s.toList.Pairwise (joins · ·) := by
    refine List.pairwise_of_forall_mem_list fun a ha b hb => ?_
    rw [joins, h.not_isMark ha, h.not_isMark hb]
    rfl
  have blank : s ≠ " " := by
    rintro rfl
    exact absurd h (by decide)
  have chars : s.toList ≠ [] := mt String.toList_eq_nil_iff.mp h.left
  rw [words, List.splitBy_of_isChain chars chain.isChain]
  simp [blank]

theorem IsWord.append (hs : IsWord s) (ht : IsWord t) : IsWord (s ++ t) := by
  refine ⟨by simp [hs.left], ?_⟩
  rw [String.toList_append, List.all_append, hs.right, ht.right]
  rfl

theorem not_isMark_of {p : Char → Bool} (hp : marks.all (!p ·)) {c : Char} (h : p c) :
    !isMark c := by
  rw [isMark, Bool.not_eq_true', decide_eq_false_iff_not]
  intro mark
  simpa [h] using List.all_eq_true.mp hp c mark

theorem isWord_toString (n : Int) : IsWord (toString n) := by
  obtain ⟨c, cs, hcs, _⟩ := exists_toString_eq_cons n
  have chars : ∀ c ∈ (toString n).toList, !isMark c := by
    intro c hc
    by_cases hn : 0 ≤ n
    case pos =>
      rw [toList_toString_of_nonneg hn] at hc
      exact not_isMark_of (by decide) (isDigit_of_mem_toDigits hc)
    case neg =>
      rw [toList_toString_of_neg (by omega)] at hc
      cases hc
      case head => rfl
      case tail hc => exact not_isMark_of (by decide) (isDigit_of_mem_toDigits hc)
  refine ⟨fun hn => ?_, List.all_eq_true.mpr chars⟩
  rw [hn] at hcs
  cases hcs

end HindleyMilner.Text
