import Edict.Proofs.Grammar.Joining
import Edict.Proofs.Grammar.Shape
import Edict.Proofs.Token.Spelling

/-!
# Names in programs

The variables, fields and functions that are named in a program are names (`IsName`): none of them
is a reserved word.  What a derived expression names, one of its tokens names
(`Derives.Boolean.named`), and the scan makes such tokens of names only (`Scans.isName`).

## Main definitions

* `Expr.ownNames`: the names that a node of an expression mentions itself.
* `Expr.Named`, `Token.Named`: a property holds of all names in an expression, or in some tokens.

## Main statements

* `Derives.Boolean.named`: names of an expression are names of its tokens.
* `Program.exists_boolean`: every expression at the top of a statement of a program is derived by
  tokens all of whose names are ones of the language.
-/

namespace Edict

open Grammar

/-! ## The names of a node -/

/-- The field that a step goes to. -/
def Step.field? : Step → Option String
  | .field name => some name
  | .index _ => none

/-- The names that a node writes itself: a variable and the fields of its path, or a function. -/
def Expr.ownNames : Expr → List String
  | .ident name => [name]
  | .property base path => base :: path.filterMap Step.field?
  | .call f _ => [f]
  | _ => []

/-- A path mentions the name it begins with and its fields. -/
theorem Expr.ownNames_ofPath (root : String) (path : List Step) :
    (Reference.ofPath root path).toExpr.ownNames = root :: path.filterMap Step.field? := by
  cases path <;> rfl

/-- All names in the expression have the property. -/
def Expr.Named (p : String → Prop) (e : Expr) : Prop :=
  e.Everywhere fun x => ∀ name ∈ x.ownNames, p name

namespace Expr

variable {p : String → Prop}

/-- The names in a chain are those of its links. -/
theorem foldLinks_named {first : Expr} {links : List (ArithOp × Expr)} (hfirst : first.Named p)
    (hlinks : ∀ l ∈ links, l.2.Named p) : (foldLinks first links).Named p := by
  induction links generalizing first with
  | nil => exact hfirst
  | cons l links ih =>
      obtain ⟨hl, hlinks⟩ := List.forall_mem_cons.mp hlinks
      exact ih (everywhere_arith.mpr ⟨by simp [ownNames], hfirst, hl⟩) hlinks

/-- The same where a concatenation begins the chain. -/
theorem ofLinks_named {first : Expr} {links : List (ArithOp × Expr)} (hfirst : first.Named p)
    (hlinks : ∀ l ∈ links, l.2.Named p) : (ofLinks first links).Named p := by
  unfold ofLinks
  split
  · refine foldLinks_named (everywhere_concat.mpr ⟨by simp [ownNames], ?_⟩) fun l hl =>
      hlinks l (List.dropWhile_subset _ hl)
    refine List.forall_mem_cons.mpr ⟨hfirst, ?_⟩
    simp only [List.forall_mem_map]
    exact fun l hl => hlinks l (List.takeWhile_subset _ hl)
  · exact foldLinks_named hfirst hlinks

/-- The names in a run of terms and in what stands before it are those of both. -/
theorem joinRun_named {before : Option (Expr × Combinator)} {run : Expr}
    (hbefore : ∀ l ∈ before, l.1.Named p) (hrun : run.Named p) : (joinRun before run).Named p := by
  rcases before with _ | ⟨left, op⟩
  · exact hrun
  · exact everywhere_group.mpr ⟨by simp [ownNames], hbefore _ rfl, hrun⟩

/-- The names in terms joined by combinators are those of the terms. -/
theorem joinFrom_named {before : Option (Expr × Combinator)} {run : Expr}
    {links : List (Combinator × Expr)} (hbefore : ∀ l ∈ before, l.1.Named p) (hrun : run.Named p)
    (hlinks : ∀ l ∈ links, l.2.Named p) : (joinFrom before run links).Named p := by
  induction links generalizing before run with
  | nil => exact joinRun_named hbefore hrun
  | cons l links ih =>
      obtain ⟨op, e⟩ := l
      obtain ⟨he, hmore⟩ := List.forall_mem_cons.mp hlinks
      by_cases hop : op = .and
      · subst hop
        exact ih hbefore (everywhere_group.mpr ⟨by simp [ownNames], hrun, he⟩) hmore
      · rw [joinFrom_cons_of_ne_and _ _ _ hop]
        refine ih ?_ he hmore
        rintro _ ⟨⟩
        exact joinRun_named hbefore hrun

end Expr

/-! ## The tokens of names -/

/-- All names among the tokens have the property. -/
def Token.Named (p : String → Prop) (ts : List Token) : Prop :=
  ∀ t ∈ ts, ∀ name, t.kind = .ident name → p name

/-- The names among some of the tokens are names among all of them. -/
theorem Token.Named.within {p : String → Prop} {ts us : List Token} (h : Token.Named p ts)
    (hus : us <:+: ts) : Token.Named p us :=
  fun t ht => h t (hus.subset ht)

namespace Derives

variable {p : String → Prop} {ts : List Token} {e : Expr}

/-- The names in the expression are names among the tokens. -/
def NamedBy (p : String → Prop) (ts : List Token) (e : Expr) : Prop := Token.Named p ts → e.Named p

/-- Parts that are named by some of the tokens have names among all of them. -/
theorem Within.named (h : Within (NamedBy p) ts e) (hts : Token.Named p ts) : e.Named p := by
  obtain ⟨us, hus, he⟩ := h
  exact he (hts.within hus)

/-- The names in a place are among its tokens. -/
theorem Place.ownNames {r : Reference} (h : Place ts r) (hts : Token.Named p ts) :
    ∀ name ∈ r.toExpr.ownNames, p name := by
  obtain ⟨root, s, us, path, rfl, rfl, hpath⟩ := h.exists_path
  rw [Expr.ownNames_ofPath]
  refine List.forall_mem_cons.mpr ⟨hts _ List.mem_cons_self root rfl, fun name hname => ?_⟩
  obtain ⟨step, hstep, hfield⟩ := List.mem_filterMap.mp hname
  obtain ⟨vs, hvs, hderives⟩ := hpath.exists_of_mem step hstep
  cases hderives with
  | field =>
      cases hfield
      have hmem := hvs.subset (List.mem_cons_of_mem _ List.mem_cons_self)
      exact hts _ (List.mem_cons_of_mem _ hmem) name rfl
  | index => cases hfield

/-- Parentheses have no names. -/
theorem named_parenthesize (h : e.Named p) : e.parenthesize.Named p := by
  cases e with
  | group l op r b =>
      cases r with
      | none =>
          exact Expr.everywhere_single.mpr ⟨List.forall_mem_nil _, (Expr.everywhere_single.mp h).2⟩
      | some r =>
          exact Expr.everywhere_group.mpr ⟨List.forall_mem_nil _, (Expr.everywhere_group.mp h).2⟩
  | _ => exact Expr.everywhere_single.mpr ⟨List.forall_mem_nil _, h⟩

/-- At all levels of the grammar the names in an expression are among its tokens. -/
theorem levels_named (p : String → Prop) :
    Levels (NamedBy p) (NamedBy p) (NamedBy p) (NamedBy p) where
  lit _ _ := Expr.everywhere_lit.mpr (List.forall_mem_nil _)
  call hcall hargs hts := by
    refine Expr.everywhere_call.mpr ⟨?_, fun e he => (hargs e he).named hts⟩
    cases hcall with
    | mk => exact List.forall_mem_singleton.mpr (hts _ List.mem_cons_self _ rfl)
  place hplace hpath hts :=
    Expr.everywhere_toExpr.mpr ⟨hplace.ownNames hts, fun e he => (hpath e he).named hts⟩
  object hentries hts := Expr.everywhere_object.mpr
    ⟨List.forall_mem_nil _, fun entry hentry => (hentries entry hentry).named hts⟩
  arith {us vs _ _} hfirst hlinks hts :=
    Expr.ofLinks_named (hfirst (hts.within (List.prefix_append us vs).isInfix)) fun l hl =>
      (hlinks l hl).named (hts.within (List.suffix_append us vs).isInfix)
  parens he hts := named_parenthesize (he (hts.within ⟨[_], [_], rfl⟩))
  value he := he
  compare {us vs c _ _ _} hl hr hts := by
    have hleft := hl (hts.within (List.prefix_append us (c :: vs)).isInfix)
    have hright := hr (hts.within (suffix_append_cons us c vs).isInfix)
    exact Expr.everywhere_compare.mpr ⟨List.forall_mem_nil _, hleft, hright⟩
  boolean {us vs _ _} hfirst hlinks hts :=
    Expr.joinFrom_named nofun (hfirst (hts.within (List.prefix_append us vs).isInfix)) fun l hl =>
      (hlinks l hl).named (hts.within (List.suffix_append us vs).isInfix)

/-- The names in an expression are among the tokens that derive it. -/
theorem Boolean.named (h : Boolean ts e) (hts : Token.Named p ts) : e.Named p :=
  (levels_named p).of_boolean h hts

end Derives

/-- The operands in a program that a text is are derived by tokens of the text, the names among
which are no reserved words. -/
theorem Program.exists_boolean {source : String} {p : Program} (h : ofSource source = .ok p) :
    ∀ s ∈ Stmt.nestedAll p, ∀ e ∈ s.operands, ∃ ts, Derives.Boolean ts e ∧ Token.Named IsName ts := by
  intro s hs e he
  obtain ⟨ts, hscan, hread⟩ := ofSource_eq_ok.mp h
  obtain ⟨rest, ⟨used, hderives, -, rfl⟩, -⟩ := readProgram_sound ts hread
  obtain ⟨us, hus, hstatement⟩ := hderives.exists_statement s hs
  obtain ⟨vs, hvs, hboolean⟩ := hstatement.exists_operand e he
  have htokens : Token.Named IsName (used ++ rest) := (scanFrom_eq_iff.mp hscan).isName rfl
  have hinfix := hvs.trans (hus.trans (List.prefix_append used rest).isInfix)
  exact ⟨vs, hboolean, htokens.within hinfix⟩

end Edict
