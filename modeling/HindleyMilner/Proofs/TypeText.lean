import HindleyMilner.Proofs.Rendering
import HindleyMilner.Proofs.Words

namespace HindleyMilner

open Text

namespace Ty

-- The types that a text can tell apart: a tuple of one component is written like the component, and
-- a tuple in a tuple like one tuple.
inductive Legible : Ty → Prop
  | int : Legible .int
  | bool : Legible .bool
  | var {x : TyVar} : Legible (.var x)
  | arrow {a r : Ty} (ha : Legible a) (hr : Legible r) : Legible (.arrow a r)
  | list {e : Ty} (he : Legible e) : Legible (.list e)
  | tuple {es : List Ty} (length : es.length ≠ 1) (flat : ∀ e ∈ es, e.isTuple = false)
    (hes : ∀ e ∈ es, Legible e) : Legible (.tuple es)

inductive Frame where
  | paren
  | arrow (arg : Ty)
  | tuple (elems : List Ty)

-- A place in the text of a type: what has been begun, the innermost first, and the type right
-- before the place, if there is one.
structure Reader where
  begun : List Frame
  last : Option Ty

namespace Reader

def closeTuple : List Frame → Ty → List Frame × Ty
  | .tuple es :: fs, t => (fs, .tuple (es ++ [t]))
  | fs, t => (fs, t)

def close : List Frame → Ty → List Frame × Ty
  | .tuple es :: fs, t => close fs (.tuple (es ++ [t]))
  | .arrow a :: fs, t => close fs (.arrow a t)
  | fs, t => (fs, t)

def step (leaf : String → Ty) (w : String) : Reader → Option Reader
  | ⟨fs, none⟩ =>
    if w = "(" then some ⟨.paren :: fs, none⟩
    else if w = ")" then
      match fs with
      | .paren :: fs => some ⟨fs, some (.tuple [])⟩
      | _ => none
    else some ⟨fs, some (leaf w)⟩
  | ⟨fs, some t⟩ =>
    if w = ")" then
      match close fs t with
      | (.paren :: fs, t) => some ⟨fs, some t⟩
      | _ => none
    else if w = "->" then some ⟨.arrow (closeTuple fs t).2 :: (closeTuple fs t).1, none⟩
    else if w = "*" then
      match fs with
      | .tuple es :: fs => some ⟨.tuple (es ++ [t]) :: fs, none⟩
      | fs => some ⟨.tuple [t] :: fs, none⟩
    else if w = "list" then some ⟨fs, some (.list t)⟩
    else none

def run (leaf : String → Ty) : List String → Reader → Option Ty
  | [], ⟨fs, some t⟩ =>
    match close fs t with
    | ([], t) => some t
    | _ => none
  | [], ⟨_, none⟩ => none
  | w :: ws, r => r.step leaf w >>= run leaf ws

section Run

variable {leaf : String → Ty} {fs : List Frame} {ws : List String} {a t : Ty} {es : List Ty}

inductive Ends : List String → Prop
  | text : Ends []
  | paren (ws : List String) : Ends (")" :: ws)

inductive EndsArg : List String → Prop
  | whole {ws : List String} (h : Ends ws) : EndsArg ws
  | arrow (ws : List String) : EndsArg ("->" :: ws)

def Outside (fs : List Frame) : Prop :=
  ∀ es rest, fs ≠ .tuple es :: rest

theorem Outside.closeTuple_eq (h : Outside fs) : closeTuple fs t = (fs, t) := by
  rw [closeTuple]
  exact fun es rest => h es rest

theorem Outside.step_star (h : Outside fs) :
    step leaf "*" ⟨fs, some t⟩ = some ⟨.tuple [t] :: fs, none⟩ := by
  cases fs
  case nil => rfl
  case cons f fs =>
    cases f
    case tuple es => exact absurd rfl (h es fs)
    case paren | arrow => rfl

theorem outside_nil : Outside [] :=
  nofun

theorem outside_paren : Outside (.paren :: fs) :=
  nofun

theorem outside_arrow : Outside (.arrow a :: fs) :=
  nofun

theorem run_arrow (h : Ends ws) :
    run leaf ws ⟨.arrow a :: fs, some t⟩ = run leaf ws ⟨fs, some (.arrow a t)⟩ := by
  cases h <;> rfl

theorem run_tuple (h : EndsArg ws) (hfs : Outside fs) :
    run leaf ws ⟨.tuple es :: fs, some t⟩ = run leaf ws ⟨fs, some (.tuple (es ++ [t]))⟩ := by
  cases h
  case whole h => cases h <;> rfl
  case arrow ws =>
    change _ = run leaf ws ⟨.arrow (closeTuple fs _).2 :: (closeTuple fs _).1, none⟩
    rw [hfs.closeTuple_eq]
    rfl

end Run

end Reader

section Layout

open Reader

variable {leaf : String → Ty} {name : TyVar → String} {fs : List Frame} {ws : List String} {t : Ty}
  {es : List Ty}

structure Reads (leaf : String → Ty) (name : TyVar → String) (t : Ty) : Prop where
  component (ht : t.isTuple = false) (fs : List Frame) (ws : List String) :
    run leaf (words (t.layout name true) ++ ws) ⟨fs, none⟩ =
      run leaf ws ⟨fs, some (t.subst (leaf ∘ name))⟩
  arg {fs : List Frame} {ws : List String} (hfs : Outside fs) (hws : EndsArg ws) :
    run leaf (words (t.layout name true) ++ ws) ⟨fs, none⟩ =
      run leaf ws ⟨fs, some (t.subst (leaf ∘ name))⟩
  whole {fs : List Frame} {ws : List String} (hfs : Outside fs) (hws : Ends ws) :
    run leaf (words (t.layout name false) ++ ws) ⟨fs, none⟩ =
      run leaf ws ⟨fs, some (t.subst (leaf ∘ name))⟩

theorem Reads.of_eq (same : t.layout name false = t.layout name true)
    (h : ∀ fs ws, run leaf (words (t.layout name true) ++ ws) ⟨fs, none⟩ =
      run leaf ws ⟨fs, some (t.subst (leaf ∘ name))⟩) : Reads leaf name t where
  component _ fs ws := h fs ws
  arg _ _ := h _ _
  whole _ _ := same ▸ h _ _

theorem run_word {w : String} (hw : IsWord w) (fs : List Frame) (ws : List String) :
    run leaf (words w ++ ws) ⟨fs, none⟩ = run leaf ws ⟨fs, some (leaf w)⟩ := by
  have opening : w ≠ "(" := by
    rintro rfl
    exact absurd hw (by decide)
  have closing : w ≠ ")" := by
    rintro rfl
    exact absurd hw (by decide)
  simp [hw.words_eq, run, step, opening, closing]

theorem reads_const {n : String} (hw : IsWord n) (hn : leaf n = .const n) :
    Reads leaf name (.const n) := by
  refine .of_eq (by rw [layout, layout]) fun fs ws => ?_
  rw [layout, run_word hw, hn, subst_const]

theorem reads_var {x : TyVar} (hw : IsWord (name x)) : Reads leaf name (.var x) := by
  refine .of_eq (by rw [layout, layout]) fun fs ws => ?_
  rw [layout, run_word hw, subst_var, Function.comp_apply]

theorem run_paren {s : String} (h : ∀ {fs ws}, Outside fs → Ends ws →
      run leaf (words s ++ ws) ⟨fs, none⟩ = run leaf ws ⟨fs, some t⟩) (fs : List Frame)
    (ws : List String) :
    run leaf (words ("(" ++ s ++ ")") ++ ws) ⟨fs, none⟩ = run leaf ws ⟨fs, some t⟩ := by
  rw [words_paren, List.append_assoc]
  calc run leaf ("(" :: words s ++ ([")"] ++ ws)) ⟨fs, none⟩
    _ = run leaf (words s ++ ")" :: ws) ⟨.paren :: fs, none⟩ := rfl
    _ = run leaf (")" :: ws) ⟨.paren :: fs, some t⟩ := h outside_paren (.paren ws)
    _ = run leaf ws ⟨fs, some t⟩ := rfl

theorem words_arrow (a r : Ty) :
    words ((arrow a r).layout name false) =
      words (a.layout name true) ++ "->" :: words (r.layout name false) := by
  rw [layout, parenthesizeIf, if_neg Bool.false_ne_true,
    words_between (by decide), List.append_assoc]
  rfl

theorem run_whole_arrow {a r : Ty} (ha : Reads leaf name a) (hr : Reads leaf name r)
    (hfs : Outside fs) (hws : Ends ws) :
    run leaf (words ((arrow a r).layout name false) ++ ws) ⟨fs, none⟩ =
      run leaf ws ⟨fs, some ((arrow a r).subst (leaf ∘ name))⟩ := by
  rw [words_arrow, List.append_assoc, List.cons_append, subst_arrow]
  generalize ea : a.subst (leaf ∘ name) = a', er : r.subst (leaf ∘ name) = r'
  calc run leaf (words (a.layout name true) ++ "->" :: (words (r.layout name false) ++ ws))
        ⟨fs, none⟩
    _ = run leaf ("->" :: (words (r.layout name false) ++ ws)) ⟨fs, some a'⟩ :=
      ea ▸ ha.arg hfs (.arrow _)
    _ = run leaf (words (r.layout name false) ++ ws)
        ⟨.arrow (closeTuple fs a').2 :: (closeTuple fs a').1, none⟩ := rfl
    _ = run leaf (words (r.layout name false) ++ ws) ⟨.arrow a' :: fs, none⟩ := by
      rw [hfs.closeTuple_eq]
    _ = run leaf ws ⟨.arrow a' :: fs, some r'⟩ := er ▸ hr.whole outside_arrow hws
    _ = run leaf ws ⟨fs, some (.arrow a' r')⟩ := run_arrow hws

theorem reads_arrow {a r : Ty} (ha : Reads leaf name a) (hr : Reads leaf name r) :
    Reads leaf name (.arrow a r) := by
  have paren : (arrow a r).layout name true = "(" ++ (arrow a r).layout name false ++ ")" := by
    rw [layout, layout]
    rfl
  have component := paren ▸ run_paren (run_whole_arrow ha hr)
  exact ⟨fun _ => component, fun _ _ => component _ _, run_whole_arrow ha hr⟩

theorem reads_list {e : Ty} (he : Reads leaf name e) : Reads leaf name (.list e) := by
  refine .of_eq (by rw [layout, layout]) fun fs ws => ?_
  rw [layout, words_append_of_starts (by decide), List.append_assoc, subst_list]
  cases ht : e.isTuple
  case true =>
    rw [parenthesizeIf, if_pos rfl, Bool.not_true, run_paren he.whole]
    rfl
  case false =>
    rw [parenthesizeIf, if_neg Bool.false_ne_true, Bool.not_false, he.component ht]
    rfl

theorem startsApart_layoutRest (es : List Ty) : startsApart (layoutRest name es) := by
  cases es <;> rw [layoutRest]
  case nil => decide
  case cons =>
    rw [String.append_assoc]
    exact startsApart_append (by decide) (by decide)

theorem words_layoutRest_cons (e : Ty) (es : List Ty) :
    words (layoutRest name (e :: es)) =
      "*" :: (words (e.layout name true) ++ words (layoutRest name es)) := by
  rw [layoutRest, words_append_of_starts (startsApart_layoutRest es),
    words_append_of_ends (by decide)]
  rfl

theorem run_layoutRest (hes : ∀ e ∈ es, e.isTuple = false ∧ Reads leaf name e) (hfs : Outside fs)
    (hws : EndsArg ws) (before : List Ty) (t : Ty) :
    run leaf (words (layoutRest name es) ++ ws) ⟨.tuple before :: fs, some t⟩ =
      run leaf ws ⟨fs, some (.tuple (before ++ t :: es.map (·.subst (leaf ∘ name))))⟩ := by
  induction es generalizing before t
  case nil => exact run_tuple hws hfs
  case cons e es ih =>
    obtain ⟨he, hes⟩ := List.forall_mem_cons.mp hes
    rw [words_layoutRest_cons, List.cons_append, List.append_assoc]
    calc run leaf ("*" :: (words (e.layout name true) ++ (words (layoutRest name es) ++ ws)))
          ⟨.tuple before :: fs, some t⟩
      _ = run leaf (words (e.layout name true) ++ (words (layoutRest name es) ++ ws))
          ⟨.tuple (before ++ [t]) :: fs, none⟩ := rfl
      _ = run leaf (words (layoutRest name es) ++ ws)
          ⟨.tuple (before ++ [t]) :: fs, some (e.subst (leaf ∘ name))⟩ :=
        he.right.component he.left _ _
      _ = _ := ih hes _ _
      _ = _ := by rw [List.append_assoc]; rfl

theorem run_tuple_cons {e e' : Ty}
    (hes : ∀ a ∈ e :: e' :: es, a.isTuple = false ∧ Reads leaf name a) (hfs : Outside fs) (hws : EndsArg ws) :
    run leaf (words ((tuple (e :: e' :: es)).layout name true) ++ ws) ⟨fs, none⟩ =
      run leaf ws ⟨fs, some ((tuple (e :: e' :: es)).subst (leaf ∘ name))⟩ := by
  obtain ⟨he, hes⟩ := List.forall_mem_cons.mp hes
  obtain ⟨he', hes⟩ := List.forall_mem_cons.mp hes
  rw [layout, words_append_of_starts (startsApart_layoutRest _), words_layoutRest_cons,
    List.append_assoc, List.cons_append, List.append_assoc, he.right.component he.left, run,
    hfs.step_star]
  calc run leaf (words (e'.layout name true) ++ (words (layoutRest name es) ++ ws))
        ⟨.tuple [e.subst (leaf ∘ name)] :: fs, none⟩
    _ = run leaf (words (layoutRest name es) ++ ws)
        ⟨.tuple [e.subst (leaf ∘ name)] :: fs, some (e'.subst (leaf ∘ name))⟩ :=
      he'.right.component he'.left _ _
    _ = _ := run_layoutRest hes hfs hws _ _
    _ = _ := by rw [subst_tuple]; rfl

theorem reads_tuple (length : es.length ≠ 1)
    (hes : ∀ e ∈ es, e.isTuple = false ∧ Reads leaf name e) : Reads leaf name (.tuple es) := by
  cases es
  case nil =>
    refine .of_eq (by rw [layout, layout]) fun fs ws => ?_
    rw [layout, subst_tuple]
    rfl
  case cons e es =>
    cases es
    case nil => exact absurd rfl length
    case cons e' es =>
      have same : (tuple (e :: e' :: es)).layout name false =
        (tuple (e :: e' :: es)).layout name true := by rw [layout, layout]
      refine ⟨fun ht => Bool.noConfusion ht, run_tuple_cons hes, fun hfs hws => ?_⟩
      exact same ▸ run_tuple_cons hes hfs (.whole hws)

theorem Legible.reads (h : t.Legible) (hn : ∀ x, IsWord (name x)) (int : leaf "int" = .int)
    (bool : leaf "bool" = .bool) : Reads leaf name t := by
  induction h
  case int => exact reads_const (by decide) int
  case bool => exact reads_const (by decide) bool
  case var => exact reads_var (hn _)
  case arrow iha ihr => exact reads_arrow iha ihr
  case list ih => exact reads_list ih
  case tuple length flat _ ih => exact reads_tuple length fun e he => ⟨flat e he, ih e he⟩

theorem Legible.run_layout (h : t.Legible) (hn : ∀ x, IsWord (name x)) (int : leaf "int" = .int)
    (bool : leaf "bool" = .bool) :
    run leaf (words (t.layout name false)) ⟨[], none⟩ = some (t.subst (leaf ∘ name)) := by
  have whole := (h.reads hn int bool).whole outside_nil .text
  rwa [List.append_nil] at whole

end Layout

structure IsVarName (s : String) : Prop where
  word : IsWord s
  quote : s.toList.head? = some '\''

def ofWord (var : String → TyVar) (w : String) : Ty :=
  if w = "int" then .int else if w = "bool" then .bool else .var (var w)

theorem IsVarName.ofWord_eq {w : String} (h : IsVarName w) (var : String → TyVar) :
    ofWord var w = .var (var w) := by
  have int : w ≠ "int" := by
    rintro rfl
    exact absurd h.quote (by decide)
  have bool : w ≠ "bool" := by
    rintro rfl
    exact absurd h.quote (by decide)
  rw [ofWord, if_neg int, if_neg bool]

section Names

variable {t t' : Ty} {name name' : TyVar → String}

theorem subst_eq_of_layout_eq (ht : t.Legible) (ht' : t'.Legible) (hn : ∀ x, IsVarName (name x))
    (hn' : ∀ x, IsVarName (name' x)) (h : t.layout name false = t'.layout name' false)
    (leaf : String → Ty) (int : leaf "int" = .int) (bool : leaf "bool" = .bool) :
    t.subst (leaf ∘ name) = t'.subst (leaf ∘ name') := by
  have run := ht.run_layout (fun x => (hn x).word) int bool
  rw [h, ht'.run_layout (fun x => (hn' x).word) int bool] at run
  exact (Option.some_inj.mp run).symm

theorem exists_rename (ht : t.Legible) (ht' : t'.Legible) (hn : ∀ x, IsVarName (name x))
    (hn' : ∀ x, IsVarName (name' x)) (inj : Set.InjOn name' {x | x ∈ t'.vars})
    (h : t.layout name false = t'.layout name' false) :
    ∃ g : TyVar → TyVar, t' = t.subst (fun x => .var (g x)) ∧
      ∀ x ∈ t.vars, name' (g x) = name x := by
  have same := subst_eq_of_layout_eq ht ht' hn hn' h
  obtain ⟨var, hvar⟩ : ∃ var : String → TyVar, ∀ x ∈ t'.vars, var (name' x) = x :=
    ⟨_, inj.leftInvOn_invFunOn⟩
  have renamed : t' = t.subst fun x => .var (var (name x)) := by
    calc t'
      _ = t'.subst (ofWord var ∘ name') := by
        refine (subst_eq_self fun x hx => ?_).symm
        rw [Function.comp_apply, (hn' x).ofWord_eq, hvar x hx]
      _ = t.subst (ofWord var ∘ name) := (same (ofWord var) rfl rfl).symm
      _ = _ := subst_congr fun x _ => (hn x).ofWord_eq var
  refine ⟨fun x => var (name x), renamed, fun x hx => ?_⟩
  -- If every word stands for itself, the names of the variables are what is read.
  have names := same .const rfl rfl
  rw [renamed, subst_subst] at names
  simpa using (eq_of_subst_eq names hx).symm

end Names

end Ty

namespace TyVar

open Ty

theorem isVarName_render (x : TyVar) : IsVarName x.render where
  word := .append (by decide) (isWord_toString _)
  quote := by simp [render]

theorem render_injective : Function.Injective render := by
  intro x y h
  rw [render, render, String.append_right_inj, Int.toString_eq_repr, Int.toString_eq_repr] at h
  exact Int64.toInt_inj.mp (Int.repr_injective h)

def letter (i : Nat) : Char :=
  Char.ofNat ('a'.toNat + i % 26)

theorem letter_inj {i j : Nat} (h : letter i = letter j) : i % 26 = j % 26 := by
  have all : ∀ m < 26, ∀ n < 26,
    Char.ofNat ('a'.toNat + m) = Char.ofNat ('a'.toNat + n) → m = n := by decide
  exact all _ (Nat.mod_lt i (by decide)) _ (Nat.mod_lt j (by decide)) h

theorem not_isMark_letter (i : Nat) : !isMark (letter i) := by
  have all : ∀ m < 26, !isMark (Char.ofNat ('a'.toNat + m)) := by decide
  exact all _ (Nat.mod_lt i (by decide))

theorem letter_ne_underscore (i : Nat) : letter i ≠ '_' := by
  have all : ∀ m < 26, Char.ofNat ('a'.toNat + m) ≠ '_' := by decide
  exact all _ (Nat.mod_lt i (by decide))

def round (i : Nat) : String :=
  if i < 26 then "" else toString (i / 26)

theorem toList_quantifiedName (i : Nat) :
    (quantifiedName i).toList = '\'' :: letter i :: (round i).toList := by
  rw [quantifiedName, round]
  split <;> simp [letter]

theorem isVarName_quantifiedName (i : Nat) : IsVarName (quantifiedName i) := by
  have number : (round i).toList.all (!isMark ·) := by
    rw [round]
    split
    case isTrue => rfl
    case isFalse => exact (isWord_toString (i / 26 : Nat)).right
  refine ⟨⟨?_, ?_⟩, by rw [toList_quantifiedName]; rfl⟩
  · rw [← String.toList_inj.ne, toList_quantifiedName]
    nofun
  · rw [toList_quantifiedName, List.all_cons, List.all_cons, not_isMark_letter, number]
    rfl

theorem round_inj {i j : Nat} (h : round i = round j) : i / 26 = j / 26 := by
  have some (n : Nat) : toString n ≠ "" := (isWord_toString n).left
  rw [round, round] at h
  split at h <;> split at h
  case isTrue.isTrue => omega
  case isTrue.isFalse => exact absurd h.symm (some _)
  case isFalse.isTrue => exact absurd h (some _)
  case isFalse.isFalse => exact Nat.repr_injective h

theorem quantifiedName_injective : Function.Injective quantifiedName := by
  intro i j h
  have chars := congrArg String.toList h
  rw [toList_quantifiedName, toList_quantifiedName, List.cons_inj_right, List.cons_eq_cons,
    String.toList_inj] at chars
  have letters := letter_inj chars.left
  have rounds := round_inj chars.right
  omega

theorem quantifiedName_ne_render (i : Nat) (x : TyVar) : quantifiedName i ≠ x.render := by
  intro h
  have chars := congrArg String.toList h
  rw [toList_quantifiedName, render, String.toList_append] at chars
  exact letter_ne_underscore i (List.cons_eq_cons.mp (List.cons_eq_cons.mp chars).right).left

end TyVar

namespace Scheme

open Ty

variable {σ σ' : Scheme} {f : TyVar → TyVar} {x y : TyVar}

def nameOf (σ : Scheme) (x : TyVar) : String :=
  if x ∈ σ.vars then TyVar.quantifiedName ((σ.body.vars.filter (· ∈ σ.vars)).eraseDups.idxOf x)
  else x.render

theorem render_eq_layout (σ : Scheme) : σ.render = σ.body.layout σ.nameOf false :=
  rfl

theorem isVarName_nameOf (σ : Scheme) (x : TyVar) : IsVarName (σ.nameOf x) := by
  rw [nameOf]
  split
  case isTrue => exact TyVar.isVarName_quantifiedName _
  case isFalse => exact TyVar.isVarName_render x

theorem of_nameOf_eq (h : σ.nameOf x = σ'.nameOf y) :
    (x ∈ σ.vars ↔ y ∈ σ'.vars) ∧ (x ∉ σ.vars → x = y) := by
  rw [nameOf, nameOf] at h
  split at h <;> split at h
  case isTrue.isTrue hx hy => exact ⟨iff_of_true hx hy, absurd hx⟩
  case isTrue.isFalse => exact absurd h (TyVar.quantifiedName_ne_render _ _)
  case isFalse.isTrue => exact absurd h.symm (TyVar.quantifiedName_ne_render _ _)
  case isFalse.isFalse hx hy => exact ⟨iff_of_false hx hy, fun _ => TyVar.render_injective h⟩

theorem nameOf_injOn (σ : Scheme) : Set.InjOn σ.nameOf {x | x ∈ σ.body.vars} := by
  intro x hx y hy h
  by_cases hq : x ∈ σ.vars
  case pos =>
    have hq' := (of_nameOf_eq h).left.mp hq
    rw [nameOf, nameOf, if_pos hq, if_pos hq'] at h
    exact (List.idxOf_inj (by simpa using ⟨hx, hq⟩)).mp (TyVar.quantifiedName_injective h)
  case neg => exact (of_nameOf_eq h).right hq

def occurring (σ : Scheme) : VarSet :=
  σ.vars.filter (· ∈ σ.body.vars)

-- `f` takes the quantified variables of one body one to one to those of the other, and makes the
-- one body the other. Free variables stay as they are, and stay free.
structure Corresponds (f : TyVar → TyVar) (σ σ' : Scheme) : Prop where
  bijOn : Set.BijOn f {x | x ∈ σ.occurring} {y | y ∈ σ'.occurring}
  body : σ'.body = σ.body.subst fun x => .var (renameIn σ.vars f x)
  freeVars : σ.freeVars = σ'.freeVars

theorem mem_occurring : x ∈ σ.occurring ↔ x ∈ σ.body.vars ∧ x ∈ σ.vars := by
  simp [occurring, and_comm]

theorem Corresponds.of_iff (body : σ'.body = σ.body.subst fun x => .var (f x))
    (quantified : ∀ x ∈ σ.body.vars, f x ∈ σ'.vars ↔ x ∈ σ.vars)
    (fixed : ∀ x ∈ σ.body.vars, x ∉ σ.vars → f x = x)
    (injOn : Set.InjOn f {x | x ∈ σ.body.vars}) : Corresponds f σ σ' := by
  have vars (y) : y ∈ σ'.body.vars ↔ ∃ x ∈ σ.body.vars, f x = y := by
    rw [body, vars_rename, List.mem_map]
  refine ⟨⟨fun x hx => ?_, injOn.mono fun x hx => ?_, fun y hy => ?_⟩, ?_, ?_⟩
  case refine_1 =>
    obtain ⟨hx, hq⟩ := mem_occurring.mp hx
    exact mem_occurring.mpr ⟨(vars _).mpr ⟨x, hx, rfl⟩, (quantified x hx).mpr hq⟩
  case refine_2 => exact (mem_occurring.mp hx).left
  case refine_3 =>
    obtain ⟨hy, hq⟩ := mem_occurring.mp hy
    obtain ⟨x, hx, rfl⟩ := (vars y).mp hy
    exact ⟨x, mem_occurring.mpr ⟨hx, (quantified x hx).mp hq⟩, rfl⟩
  case refine_4 =>
    refine body.trans (subst_congr fun x hx => ?_)
    rw [renameIn]
    split
    case isTrue => rfl
    case isFalse hq => rw [fixed x hx hq]
  case refine_5 =>
    refine SortedSet.ext_mem fun y => ?_
    rw [mem_freeVars, mem_freeVars]
    constructor
    case mp =>
      rintro ⟨hy, hq⟩
      have same := fixed y hy hq
      exact ⟨(vars y).mpr ⟨y, hy, same⟩, fun hq' => hq ((quantified y hy).mp (same.symm ▸ hq'))⟩
    case mpr =>
      rintro ⟨hy, hq⟩
      obtain ⟨x, hx, rfl⟩ := (vars y).mp hy
      have hq := mt (quantified x hx).mpr hq
      rw [fixed x hx hq]
      exact ⟨hx, hq⟩

theorem exists_corresponds (hσ : σ.body.Legible) (hσ' : σ'.body.Legible)
    (h : σ.render = σ'.render) : ∃ f, Corresponds f σ σ' := by
  rw [render_eq_layout, render_eq_layout] at h
  obtain ⟨f, body, names⟩ :=
    exists_rename hσ hσ' σ.isVarName_nameOf σ'.isVarName_nameOf σ'.nameOf_injOn h
  refine ⟨f, .of_iff body (fun x hx => ?_) (fun x hx hq => ?_) fun x hx y hy hxy => ?_⟩
  case refine_1 => exact (of_nameOf_eq (names x hx)).left
  case refine_2 => exact ((of_nameOf_eq (names x hx).symm).right hq).symm
  case refine_3 => exact σ.nameOf_injOn hx hy (by rw [← names x hx, ← names y hy, hxy])

def trim (σ : Scheme) : Scheme where
  vars := σ.occurring
  body := σ.body

theorem mem_vars_trim (hx : x ∈ σ.body.vars) : x ∈ σ.trim.vars ↔ x ∈ σ.vars :=
  mem_occurring.trans (and_iff_right hx)

theorem freeVars_trim (σ : Scheme) : σ.trim.freeVars = σ.freeVars := by
  refine SortedSet.ext_mem fun x => ?_
  rw [mem_freeVars, mem_freeVars]
  exact and_congr_right fun hx => not_congr (mem_vars_trim hx)

theorem render_trim (σ : Scheme) : σ.trim.render = σ.render := by
  have appearing :
      σ.trim.body.vars.filter (· ∈ σ.trim.vars) = σ.body.vars.filter (· ∈ σ.vars) :=
    List.filter_congr fun x hx => decide_eq_decide.mpr (mem_vars_trim hx)
  refine layout_congr false fun x hx => ?_
  have quantified : x ∈ σ.trim.vars ↔ x ∈ σ.vars := mem_vars_trim hx
  simp only [appearing, quantified]

theorem Corresponds.renamedBy_trim (h : Corresponds f σ σ') : RenamedBy f σ.trim σ'.trim where
  injOn _ hx _ hy := h.bijOn.injOn hx hy
  apart x hx := by
    have hq : f x ∈ σ'.trim.vars := h.bijOn.mapsTo hx
    rw [freeVars_trim, h.freeVars, ← freeVars_trim, mem_freeVars]
    exact fun hf => hf.right hq
  vars _ := ⟨fun hy => h.bijOn.surjOn hy, fun ⟨_, hx, hxy⟩ => hxy ▸ h.bijOn.mapsTo hx⟩
  body := by
    refine h.body.trans (subst_congr fun x hx => ?_)
    simp only [renameIn, mem_vars_trim hx]

theorem Corresponds.render_eq (h : Corresponds f σ σ') : σ.render = σ'.render := by
  rw [← σ.render_trim, ← σ'.render_trim]
  exact Equivalent.render_eq ⟨f, h.renamedBy_trim⟩

-- The text of a scheme is the same for exactly those schemes that differ in the names of quantified
-- variables, or in variables that they quantify without having them. The text of a type tells the
-- type.
theorem render_canonical (σ σ' : Scheme) (hσ : σ.body.Legible) (hσ' : σ'.body.Legible) :
    (σ.render = σ'.render ↔ ∃ f, Corresponds f σ σ') ∧
      (σ.body.render = σ'.body.render ↔ σ.body = σ'.body) := by
  refine ⟨⟨exists_corresponds hσ hσ', fun ⟨f, h⟩ => h.render_eq⟩, fun h => ?_, congrArg Ty.render⟩
  obtain ⟨f, body, names⟩ := exists_rename hσ hσ' TyVar.isVarName_render TyVar.isVarName_render
    TyVar.render_injective.injOn h
  rw [body, subst_eq_self fun x hx => congrArg Ty.var (TyVar.render_injective (names x hx))]

def pairOver (vs : List TyVar) (x y : TyVar) : Scheme where
  vars := .ofList vs
  body := .tuple [.arrow (.var x) (.arrow (.var (-3)) (.var y)), .list (.tuple [.var y, .var x])]

theorem legible_pairOver (vs : List TyVar) (x y : TyVar) : (pairOver vs x y).body.Legible := by
  have pair {a b : Ty} (ha : a.Legible) (hb : b.Legible) (hat : a.isTuple = false)
      (hbt : b.isTuple = false) : (Ty.tuple [a, b]).Legible :=
    .tuple (by simp) (by simp [hat, hbt]) (by simp [ha, hb])
  exact pair (.arrow .var (.arrow .var .var)) (.list (pair .var .var rfl rfl)) rfl rfl

theorem render_canonical_pairOver :
    (pairOver [4, 9] 9 4).render = "('a -> '_-3 -> 'b) * ('b * 'a) list" ∧
      (∃ f, Corresponds f (pairOver [4, 9] 9 4) (pairOver [0, 5, 7] 0 7)) ∧
      (¬∃ f, Corresponds f (pairOver [4, 9] 9 4) (pairOver [9] 9 4)) ∧
      (pairOver [4, 9] 9 4).body.render ≠ (pairOver [0, 5, 7] 0 7).body.render := by
  have legible := legible_pairOver
  have renamed := render_canonical _ _ (legible [4, 9] 9 4) (legible [0, 5, 7] 0 7)
  have freed := render_canonical _ _ (legible [4, 9] 9 4) (legible [9] 9 4)
  refine ⟨by decide, renamed.left.mp (by decide), mt freed.left.mpr (by decide), ?_⟩
  exact mt renamed.right.mp (by simp [pairOver])

end Scheme

end HindleyMilner
