import Edict.Proofs.Grammar.Display

/-!
# Forms of displayed expressions

What an expression without a comparison at its top is, its first word and the character behind that
tell: a text, a number, a truth value, a place, a call, a concatenation, an object, or two operands
in parentheses (`Expr.ofChars_display`).  A concatenation looks like a call, so no function may have
its name.

## Main definitions

* `Expr.Form`: the forms, each with what its first word tells.
* `Expr.form`, `Expr.Form.ofChars`: the form of an expression, and the form that a text shows.
* `Expr.NodeReadable`, `Expr.Readable`: a node, or every node, has a shape that can be read and
  words that can be told apart.

## Main statements

* `Expr.ofChars_display`: the text of a readable expression shows its form, whatever stands behind
  it. A comparison has no form of its own, since it is shown without parentheses.
-/

namespace Edict

open Rule

/-! ## Cutting texts -/

section

variable {p : Char → Bool} {v w rest rest' : List Char}

/-- A word of characters of one class is cut off where no such character follows. -/
theorem takeWhile_dropWhile_append (hv : ∀ c ∈ v, p c = true)
    (hrest : ∀ c ∈ rest.head?, p c = false) :
    (v ++ rest).takeWhile p = v ∧ (v ++ rest).dropWhile p = rest := by
  rw [List.takeWhile_append_of_pos hv, List.dropWhile_append_of_pos hv]
  cases rest with
  | nil => simp
  | cons c rest => simp [hrest c rfl]

/-- Two words of characters of one class, which end where no such character follows. -/
theorem chars_eq_of_append_eq (hv : ∀ c ∈ v, p c = true) (hw : ∀ c ∈ w, p c = true)
    (hrest : ∀ c ∈ rest.head?, p c = false) (hrest' : ∀ c ∈ rest'.head?, p c = false)
    (h : v ++ rest = w ++ rest') : v = w ∧ rest = rest' := by
  obtain ⟨htake, hdrop⟩ := takeWhile_dropWhile_append hv hrest
  obtain ⟨htake', hdrop'⟩ := takeWhile_dropWhile_append hw hrest'
  exact ⟨by rw [← htake, h, htake'], by rw [← hdrop, h, hdrop']⟩

/-- Two texts that end in front of one mark, which is not in them. -/
theorem eq_of_append_mark_eq {mark : Char} {s t : String} (hs : mark ∉ s.toList)
    (ht : mark ∉ t.toList) (h : s.toList ++ mark :: rest = t.toList ++ mark :: rest') :
    s = t ∧ rest = rest' := by
  have hother : ∀ {u : String}, mark ∉ u.toList → ∀ c ∈ u.toList, (c != mark) = true := by
    intro u hu c hc
    exact bne_iff_ne.mpr fun heq => hu (heq ▸ hc)
  have hmark : ∀ rest : List Char, ∀ c ∈ (mark :: rest).head?, (c != mark) = false := by
    rintro _ _ ⟨⟩
    exact bne_self_eq_false mark
  obtain ⟨hsame, hmore⟩ := chars_eq_of_append_eq (hother hs) (hother ht) (hmark _) (hmark _) h
  exact ⟨String.toList_inj.mp hsame, (List.cons.inj hmore).2⟩

end

/-- A word that is made like a name. -/
def MadeLikeName (s : String) : Prop :=
  ∃ c cs, s.toList = c :: cs ∧ startsName c = true ∧ ∀ d ∈ cs, continuesName d = true

/-- Names are made so. -/
theorem IsName.madeLikeName {s : String} (h : IsName s) : MadeLikeName s := by
  unfold MadeLikeName
  have hword := h.word
  generalize s.toList = w at hword
  cases hword with
  | name hc hcs => exact ⟨_, _, rfl, hc, hcs⟩

/-- Two names that no character of names follows. -/
theorem IsName.eq_of_append_eq {s t : String} (hs : IsName s) (ht : IsName t)
    {rest rest' : List Char} (hrest : ∀ c ∈ rest.head?, continuesName c = false)
    (hrest' : ∀ c ∈ rest'.head?, continuesName c = false)
    (h : s.toList ++ rest = t.toList ++ rest') : s = t ∧ rest = rest' := by
  obtain ⟨c, cs, hc, -, hcs⟩ := hs.madeLikeName
  obtain ⟨d, ds, hd, -, hds⟩ := ht.madeLikeName
  rw [hc, hd] at h
  obtain ⟨rfl, hmore⟩ := List.cons.inj h
  obtain ⟨rfl, hsame⟩ := chars_eq_of_append_eq hcs hds hrest hrest' hmore
  exact ⟨String.toList_inj.mp (hc.trans hd.symm), hsame⟩

/-- No name is a truth value. -/
theorem IsName.ne_bool {s : String} (h : IsName s) : ¬(s = "true" ∨ s = "false") := by
  rintro (rfl | rfl)
  · exact h.free (.bool true) (by decide)
  · exact h.free (.bool false) (by decide)

/-- What stands in parentheses begins with the opening one. -/
theorem head_lparen (rest : List Char) : ("(".toList ++ rest).head? = some '(' := rfl

/-- What stands in parentheses does not go on with a name. -/
theorem lparen_not_continuesName {rest : List Char} :
    ∀ c ∈ ("(".toList ++ rest).head?, continuesName c = false := by
  rintro _ ⟨⟩
  decide

/-- No path begins with a parenthesis. -/
theorem Step.head_displayAll_ne_lparen (path : List Step) {rest : List Char} (hrest : Closes rest) :
    ((Step.displayAll path).toList ++ rest).head? ≠ some '(' := by
  intro heq
  cases path with
  | nil => simpa using hrest _ heq
  | cons step path =>
      cases step <;> simp [Step.displayAll] at heq

/-- Two texts between quotes. -/
theorem quoted_eq_of_append_eq {s t : String} (hs : '\'' ∉ s.toList) (ht : '\'' ∉ t.toList)
    {rest rest' : List Char} (h : (quoted s).toList ++ rest = (quoted t).toList ++ rest') :
    s = t ∧ rest = rest' := by
  have hchars : ∀ (u : String) (rest : List Char),
      (quoted u).toList ++ rest = '\'' :: (u.toList ++ '\'' :: rest) := by simp [quoted]
  rw [hchars, hchars] at h
  exact eq_of_append_mark_eq hs ht (List.cons.inj h).2

/-- The texts of two finite numbers that no character of numbers follows. -/
theorem Number.eq_of_text_append_eq {x y : Float} (hx : x.isFinite = true) (hy : y.isFinite = true)
    {rest rest' : List Char} (hrest : Closes rest) (hrest' : Closes rest')
    (h : (text x).toList ++ rest = (text y).toList ++ rest') : text x = text y ∧ rest = rest' := by
  have hword : ∀ {z : Float}, z.isFinite = true →
      ∀ c ∈ (text z).toList, (c.isDigit || ['-', '.'].contains c) = true := by
    intro z hz c hc
    rw [Bool.or_eq_true, List.contains_iff_mem]
    exact (word_text hz).mem_number c hc
  have hend : ∀ {rest : List Char}, Closes rest →
      ∀ c ∈ rest.head?, (c.isDigit || ['-', '.'].contains c) = false := by
    intro rest hrest c hc
    obtain ⟨hdigit, hmark⟩ := hrest.not_number c hc
    rw [hdigit, Bool.false_or, ← Bool.not_eq_true, List.contains_iff_mem]
    exact hmark
  obtain ⟨hsame, hmore⟩ := chars_eq_of_append_eq (hword hx) (hword hy) (hend hrest) (hend hrest') h
  exact ⟨String.toList_inj.mp hsame, hmore⟩

/-! ## Forms -/

namespace Expr

/-- What an expression looks like from its beginning. -/
inductive Form where
  | text
  | number
  | bool
  | place
  | call
  | concat
  | object
  /-- Two operands in parentheses. -/
  | pair
  /-- No expression. -/
  | none
deriving DecidableEq

/-- The form of a text. -/
def Form.ofChars : List Char → Form
  | [] => .none
  | c :: cs =>
      if c = '\'' then .text
      else if c = '\x7b' then .object
      else if c = '(' then .pair
      else if Front.number.has c then .number
      else if startsName c = false then .none
      else
        let word := c :: cs.takeWhile continuesName
        if (cs.dropWhile continuesName).head? = some '(' then
          if word = "concat".toList then .concat else .call
        else if word = "true".toList ∨ word = "false".toList then .bool
        else .place

/-- The form of an expression; that of a comparison is the form of its left side. -/
def form : Expr → Form
  | .lit (.text _) => .text
  | .lit (.number _) => .number
  | .lit (.bool _) => .bool
  | .ident _ => .place
  | .property _ _ => .place
  | .call _ _ => .call
  | .object _ => .object
  | .arith _ _ _ => .pair
  | .concat _ => .concat
  | .compare l _ _ => l.form
  | .group _ (some _) (some _) _ => .pair
  | .group l _ _ _ => l.form

/-- Whether the text of the node has no end of its own: that of a comparison is the end of its right
side, and parentheses around one operand are not shown. -/
def isOpen : Expr → Bool
  | .compare _ _ _ => true
  | .group _ (some _) (some _) _ => false
  | .group _ _ _ _ => true
  | _ => false

/-- The function that a node calls. -/
def function? : Expr → Option String
  | .call f _ => some f
  | _ => none

/-- Nothing that the node writes hides what it is: there are no quotes in what is shown between
quotes, its number is finite, and it is no call that looks like a concatenation. -/
def NodePlain (e : Expr) : Prop :=
  (∀ s ∈ e.ownTexts, '\'' ∉ s.toList) ∧ (∀ x ∈ e.number?, x.isFinite = true) ∧
    e.function? ≠ some "concat"

instance (e : Expr) : Decidable e.NodePlain :=
  inferInstanceAs (Decidable ((∀ s ∈ e.ownTexts, '\'' ∉ s.toList) ∧
    (∀ x ∈ e.number?, x.isFinite = true) ∧ e.function? ≠ some "concat"))

/-- A node whose text can be told from others. -/
structure NodeReadable (e : Expr) : Prop where
  shape : e.NodeShape
  names : ∀ s ∈ e.ownNames, IsName s
  plain : e.NodePlain

namespace NodeReadable

variable {e : Expr} (h : e.NodeReadable)
include h

/-- The texts of a readable node can be shown between quotes. -/
theorem texts : ∀ s ∈ e.ownTexts, '\'' ∉ s.toList := h.plain.1

/-- The numbers of a readable node are finite. -/
theorem numbers : ∀ x ∈ e.number?, x.isFinite = true := h.plain.2.1

/-- No readable node calls a function that has the name of a concatenation. -/
theorem function : e.function? ≠ some "concat" := h.plain.2.2

end NodeReadable

/-- All nodes of the expression can be told from others. -/
def Readable (e : Expr) : Prop := e.Everywhere NodeReadable

/-- Every expression has a form; that of a comparison is the one of its left side. -/
theorem form_ne_none : ∀ e : Expr, e.form ≠ .none
  | .lit (.text _) | .lit (.number _) | .lit (.bool _) => nofun
  | .ident _ | .property _ _ | .call _ _ | .object _ | .arith _ _ _ | .concat _ => nofun
  | .group _ (some _) (some _) _ => nofun
  | .compare l _ _ | .group l none _ _ | .group l (some _) none _ => form_ne_none l

/-! ## Forms of texts -/

/-- The form of what begins with a word made like a name. -/
theorem Form.ofChars_word {s : String} {rest : List Char} (hs : MadeLikeName s)
    (hrest : ∀ d ∈ rest.head?, continuesName d = false) :
    ofChars (s.toList ++ rest) =
      if rest.head? = some '(' then
        if s = "concat" then .concat else .call
      else if s = "true" ∨ s = "false" then .bool
      else .place := by
  obtain ⟨c, cs, hchars, hc, hcs⟩ := hs
  have hmarks : ∀ d ∈ ['\'', '\x7b', '('], startsName d = false := by simp [startsName]
  have hne : ∀ d ∈ ['\'', '\x7b', '('], c ≠ d := by
    rintro d hd rfl
    rw [hmarks c hd] at hc
    cases hc
  have hnumber : ¬Front.number.has c = true := fun h => Front.not_number_and_letter h hc
  have hletter : ¬startsName c = false := by simp [hc]
  obtain ⟨htake, hdrop⟩ := takeWhile_dropWhile_append hcs hrest
  rw [hchars, List.cons_append, ofChars, if_neg (hne _ (by simp)), if_neg (hne _ (by simp)),
    if_neg (hne _ (by simp)), if_neg hnumber, if_neg hletter, htake, hdrop, ← hchars]
  simp only [String.toList_inj]

/-- The words of truth values and of concatenations are made like names. -/
theorem madeLikeName_of_mem : ∀ s ∈ ["true", "false", "concat"], MadeLikeName s := by
  have hall : ∀ s ∈ ["true", "false", "concat"], s.toList.head?.any startsName = true ∧
      s.toList.tail.all continuesName = true := by decide
  intro s hs
  obtain ⟨hhead, htail⟩ := hall s hs
  rcases hchars : s.toList with _ | ⟨c, cs⟩
  · rw [hchars] at hhead
    cases hhead
  · rw [hchars] at hhead htail
    exact ⟨c, cs, hchars, hhead, List.all_eq_true.mp htail⟩

/-- In front of what may stand behind a value, the text of a node has its form. -/
theorem ofChars_display {e : Expr} (h : e.NodeReadable) (hopen : e.isOpen = false)
    {rest : List Char} (hrest : Closes rest) : Form.ofChars (e.display.toList ++ rest) = e.form := by
  have hparen : rest.head? ≠ some '(' := fun heq => by simpa using hrest _ heq
  cases e with
  | lit l =>
      cases l with
      | text s =>
          rw [display, Literal.display, quoted, String.toList_append, String.toList_append]
          rfl
      | number x =>
          obtain ⟨c, cs, hc, hhas⟩ := (Number.word_text (h.numbers x rfl)).begins
          have hmarks : ∀ d ∈ ['\'', '\x7b', '('], Front.number.has d = false := by simp [Front.has]
          have hne : ∀ d ∈ ['\'', '\x7b', '('], c ≠ d := by
            rintro d hd rfl
            rw [hmarks c hd] at hhas
            cases hhas
          rw [display, Literal.display, hc, List.cons_append, Form.ofChars, if_neg (hne _ (by simp)),
            if_neg (hne _ (by simp)), if_neg (hne _ (by simp)), if_pos hhas]
          rfl
      | bool b =>
          have hword : MadeLikeName (boolText b) := madeLikeName_of_mem _ (by cases b <;> decide)
          have hbool : boolText b = "true" ∨ boolText b = "false" := by cases b <;> decide
          rw [display, Literal.display, Form.ofChars_word hword hrest.not_continuesName,
            if_neg hparen, if_pos hbool]
          rfl
  | ident name =>
      have hname := h.names name List.mem_cons_self
      rw [display, Form.ofChars_word hname.madeLikeName hrest.not_continuesName, if_neg hparen,
        if_neg hname.ne_bool]
      rfl
  | property base path =>
      have hname := h.names base List.mem_cons_self
      rw [display, String.toList_append, List.append_assoc, Form.ofChars_word hname.madeLikeName
        (Step.head_displayAll path hrest), if_neg (Step.head_displayAll_ne_lparen path hrest),
        if_neg hname.ne_bool]
      rfl
  | call f args =>
      have hname := h.names f List.mem_cons_self
      have hconcat : f ≠ "concat" := fun heq => h.function (congrArg some heq)
      simp only [display, String.toList_append, List.append_assoc]
      rw [Form.ofChars_word hname.madeLikeName lparen_not_continuesName,
        if_pos (head_lparen _), if_neg hconcat]
      rfl
  | concat parts =>
      have hword := madeLikeName_of_mem "concat" (by decide)
      have hparts : "concat(" = "concat" ++ "(" := by decide
      simp only [display, hparts, String.toList_append, List.append_assoc]
      rw [Form.ofChars_word hword lparen_not_continuesName, if_pos (head_lparen _), if_pos rfl]
      rfl
  | object entries =>
      rw [display, String.toList_append, String.toList_append]
      rfl
  | arith l op r =>
      simp only [display, String.toList_append]
      rfl
  | group l op r b =>
      obtain _ | op := op
      · cases hopen
      obtain _ | r := r
      · cases hopen
      simp only [display, String.toList_append]
      rfl
  | compare l op r => cases hopen

end Expr

end Edict
