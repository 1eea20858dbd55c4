import Edict.Proofs.Grammar.Derivation
import Edict.Proofs.Run.Terms

/-!
# The tokens of the parts of a program

Whatever stands in a derived tree is derived itself, by some of its tokens.  The two inductions that
facts about derived trees come down to are stated here once.  For expressions this is
`Derives.Levels.of_boolean`: it remains to say what holds at each level of the grammar.  For
statements at any depth it is `Derives.Program.exists_statement`: it remains to say what a single
statement that is derived is like, and what it evaluates itself is derived as an expression
(`Derives.Statement.exists_operand`).

## Main definitions

* `Derives.Within`: an expression has a property together with some of the given tokens.
* `Derives.Levels`: what is to be shown at each level of the grammar.

## Main statements

* `Derives.Levels.of_boolean`: then it holds of every expression that is derived.
* `Derives.Program.exists_statement`: every statement in a program, at any depth, is derived by some
  of its tokens.
-/

namespace Edict

namespace Derives

/-! ## The tokens of pieces -/

section members

variable {α : Type} {p : List Token → α → Prop} {ts : List Token} {as : List α}

/-- Each piece of a list is derived by some of its tokens. -/
theorem Star.exists_of_mem (h : Star p ts as) : ∀ a ∈ as, ∃ us, us <:+: ts ∧ p us a := by
  induction h with
  | nil => nofun
  | @cons us vs b bs hb _ ih =>
      refine List.forall_mem_cons.mpr ⟨⟨us, (List.prefix_append us vs).isInfix, hb⟩, ?_⟩
      intro a ha
      obtain ⟨ws, hws, hp⟩ := ih a ha
      exact ⟨ws, hws.trans (List.suffix_append us vs).isInfix, hp⟩

/-- Each item of a list is derived by some of its tokens. -/
theorem Items.exists_of_mem (h : Items p ts as) : ∀ a ∈ as, ∃ us, us <:+: ts ∧ p us a := by
  induction h with
  | @last us nl b hb _ =>
      exact List.forall_mem_singleton.mpr ⟨us, (List.prefix_append us nl).isInfix, hb⟩
  | @more us nl nl' vs s b bs hb _ _ _ ih =>
      refine List.forall_mem_cons.mpr ⟨⟨us, (List.prefix_append us _).isInfix, hb⟩, ?_⟩
      intro a ha
      obtain ⟨ws, hws, hp⟩ := ih a ha
      refine ⟨ws, hws.trans (List.IsSuffix.isInfix ?_), hp⟩
      exact ⟨us ++ (nl ++ ⟨.symbol .comma, s⟩ :: nl'), by simp⟩

/-- Each item between brackets is derived by some of the tokens there. -/
theorem Delimited.exists_of_mem {trailing : Bool} (h : Delimited trailing p ts as) :
    ∀ a ∈ as, ∃ us, us <:+: ts ∧ p us a := by
  cases h with
  | empty => nofun
  | @items nl us _ _ hitems =>
      intro a ha
      obtain ⟨ws, hws, hp⟩ := hitems.exists_of_mem a ha
      exact ⟨ws, hws.trans (List.suffix_append nl us).isInfix, hp⟩
  | @comma nl us nl' s _ _ _ hitems _ =>
      intro a ha
      obtain ⟨ws, hws, hp⟩ := hitems.exists_of_mem a ha
      exact ⟨ws, hws.trans ⟨nl, _, List.append_assoc ..⟩, hp⟩

end members

/-! ## Induction over derived expressions -/

/-- Some of the tokens have the property together with the expression. -/
def Within (p : List Token → Expr → Prop) (ts : List Token) (e : Expr) : Prop :=
  ∃ us, us <:+: ts ∧ p us e

/-- What is within some of the tokens is within all of them. -/
theorem Within.mono {p : List Token → Expr → Prop} {ts us : List Token} {e : Expr}
    (h : Within p us e) (hus : us <:+: ts) : Within p ts e := by
  obtain ⟨vs, hvs, hp⟩ := h
  exact ⟨vs, hvs.trans hus, hp⟩

/-- Four properties of tokens and expressions, one for each level of the grammar, each of which
holds if those of the parts do. -/
structure Levels (P A T B : List Token → Expr → Prop) : Prop where
  lit {ts : List Token} (l : Literal) : P ts (.lit l)
  call {ts : List Token} {f : String} {args : List Expr} :
    Call ts (f, args) → (∀ e ∈ args, Within B ts e) → P ts (.call f args)
  place {ts : List Token} {r : Reference} :
    Place ts r → (∀ e, .index e ∈ r.steps → Within B ts e) → P ts r.toExpr
  object {ts : List Token} {entries : List (String × Expr)} :
    (∀ entry ∈ entries, Within B ts entry.2) → P ts (.object entries)
  arith {ts us : List Token} {first : Expr} {links : List (ArithOp × Expr)} :
    P ts first → (∀ l ∈ links, Within P us l.2) → A (ts ++ us) (Expr.ofLinks first links)
  parens {s t : Span} {ts : List Token} {e : Expr} : B ts e →
    T (⟨.symbol .lparen, s⟩ :: (ts ++ [⟨.symbol .rparen, t⟩])) e.parenthesize
  value {ts : List Token} {e : Expr} : A ts e → T ts e
  compare {ts us : List Token} {c : Token} {op : CompareOp} {l r : Expr} :
    A ts l → A us r → T (ts ++ c :: us) (.compare l op r)
  boolean {ts us : List Token} {first : Expr} {rest : List (Combinator × Expr)} :
    T ts first → (∀ l ∈ rest, Within T us l.2) → B (ts ++ us) (Expr.ofTerms first rest)

namespace Levels

variable {P A T B : List Token → Expr → Prop} {n : Nat} {ts : List Token} {e : Expr}

/-- The last property holds of what fewer than `n` tokens derive. -/
def Below (B : List Token → Expr → Prop) (n : Nat) : Prop :=
  ∀ ts e, ts.length < n → Boolean ts e → B ts e

/-- The first property holds of primaries of few tokens. -/
theorem of_primary (levels : Levels P A T B) (hn : Below B n) (hts : ts.length ≤ n)
    (h : Primary ts e) : P ts e := by
  cases h with
  | text | number | bool => exact levels.lit _
  | @call _ f args hcall =>
      refine levels.call hcall fun e he => ?_
      cases hcall with
      | mk hargs =>
          obtain ⟨us, hus, hderives⟩ := hargs.exists_of_mem e he
          have hlen := hus.length_le
          refine ⟨us, hus.trans ⟨[_, _], [_], rfl⟩, hn us e ?_ hderives⟩
          simp only [List.length_cons, List.length_append] at hts
          omega
  | @place _ r hplace =>
      refine levels.place hplace fun e he => ?_
      obtain ⟨root, s, us, path, rfl, rfl, hpath⟩ := hplace.exists_path
      rw [Reference.steps_ofPath] at he
      obtain ⟨vs, hvs, hderives⟩ := hpath.exists_of_mem _ he
      have hlen := hvs.length_le
      cases hderives with
      | @index _ _ ws _ he =>
          have hws : ws <:+: us := .trans ⟨[_], [_], rfl⟩ hvs
          refine ⟨ws, hws.trans (List.suffix_cons _ us).isInfix, hn ws e ?_ he⟩
          simp only [List.length_cons, List.length_append] at hts hlen
          omega
  | @object _ _ us entries hentries =>
      refine levels.object fun entry hentry => ?_
      obtain ⟨vs, hvs, hderives⟩ := hentries.exists_of_mem entry hentry
      have hlen := hvs.length_le
      cases hderives with
      | @mk name s t ws e he =>
          have hws : ws <:+: us := (List.IsSuffix.isInfix ⟨[_, _], rfl⟩).trans hvs
          refine ⟨ws, hws.trans ⟨[_], [_], rfl⟩, hn ws e ?_ he⟩
          simp only [List.length_cons, List.length_append] at hts hlen
          omega

/-- The first property holds of the operands of links of few tokens. -/
theorem of_link (levels : Levels P A T B) (hn : Below B n) (hts : ts.length ≤ n)
    {l : ArithOp × Expr} (h : Link ts l) : Within P ts l.2 := by
  cases h with
  | @op t us _ _ _ he =>
      exact ⟨us, (List.suffix_cons t us).isInfix, levels.of_primary hn (Nat.le_of_succ_le hts) he⟩
  | negative => exact ⟨_, List.infix_refl _, levels.lit _⟩

/-- The second property holds of arithmetic of few tokens. -/
theorem of_arith (levels : Levels P A T B) (hn : Below B n) (hts : ts.length ≤ n)
    (h : Arith ts e) : A ts e := by
  cases h with
  | mk hfirst hlinks =>
      rw [List.length_append] at hts
      refine levels.arith (levels.of_primary hn (by omega) hfirst) fun l hl => ?_
      obtain ⟨us, hus, hlink⟩ := hlinks.exists_of_mem l hl
      have hlen := hus.length_le
      exact (levels.of_link hn (by omega) hlink).mono hus

/-- The third property holds of terms of few tokens. -/
theorem of_term (levels : Levels P A T B) (hn : Below B n) (hts : ts.length ≤ n)
    (h : Term ts e) : T ts e := by
  cases h with
  | parens he =>
      refine levels.parens (hn _ _ ?_ he)
      simp only [List.length_cons, List.length_append] at hts
      omega
  | value he => exact levels.value (levels.of_arith hn hts he)
  | compare hl _ hr =>
      rw [List.length_append, List.length_cons] at hts
      exact levels.compare (levels.of_arith hn (by omega) hl) (levels.of_arith hn (by omega) hr)

/-- The last property holds of any number of tokens. -/
theorem below (levels : Levels P A T B) (n : Nat) : Below B n := by
  induction n with
  | zero => nofun
  | succ n ih =>
      intro ts e hts he
      cases he with
      | mk hfirst hlinks =>
          rw [List.length_append] at hts
          refine levels.boolean (levels.of_term ih (by omega) hfirst) fun l hl => ?_
          obtain ⟨us, hus, hlink⟩ := hlinks.exists_of_mem l hl
          have hlen := hus.length_le
          cases hlink with
          | @mk _ _ vs _ hterm =>
              rw [List.length_cons] at hlen
              have hvs := levels.of_term ih (by omega) hterm
              exact ⟨vs, (List.suffix_cons _ vs).isInfix.trans hus, hvs⟩

/-- The last property holds of all derived expressions. -/
theorem of_boolean (levels : Levels P A T B) (h : Boolean ts e) : B ts e :=
  levels.below _ ts e (Nat.lt_succ_self _) h

end Levels

/-! ## The tokens of statements and of what they evaluate -/

section statements

variable {n : Nat} {ts : List Token} {s : Stmt}

/-- A place is an expression. -/
theorem Place.boolean {r : Reference} (h : Place ts r) : Boolean ts r.toExpr :=
  (Term.value (Primary.place h).arith).boolean

/-- What a statement evaluates itself is derived by some of its tokens. -/
theorem Statement.exists_operand (h : Statement ts s) :
    ∀ e ∈ s.operands, ∃ us, us <:+: ts ∧ Boolean us e := by
  cases h with
  | branch hc _ => exact List.forall_mem_singleton.mpr ⟨_, ⟨[_], _, rfl⟩, hc⟩
  | branchElse hc _ _ _ => exact List.forall_mem_singleton.mpr ⟨_, ⟨[_], _, rfl⟩, hc⟩
  | count hc _ => exact List.forall_mem_singleton.mpr ⟨_, ⟨[_, _], _, rfl⟩, hc⟩
  | eachItem _ _ => exact List.forall_mem_nil _
  | eachOf hplace _ => exact List.forall_mem_singleton.mpr ⟨_, ⟨[_, _], _, rfl⟩, hplace.boolean⟩
  | @assign ps us t r op e hplace _ he =>
      refine List.forall_mem_cons.mpr ⟨?_, List.forall_mem_singleton.mpr ?_⟩
      · exact ⟨ps, (List.prefix_append ps _).isInfix, hplace.boolean⟩
      · exact ⟨us, ⟨ps ++ [t], [], by simp⟩, he⟩
  | call hcall =>
      cases hcall with
      | mk hargs =>
          intro e he
          obtain ⟨us, hus, hderives⟩ := hargs.exists_of_mem e he
          exact ⟨us, hus.trans ⟨[_, _], [_], rfl⟩, hderives⟩

/-- What stands behind a token. -/
theorem suffix_append_cons (us : List Token) (t : Token) (vs : List Token) :
    vs <:+ us ++ t :: vs :=
  (List.suffix_cons t vs).trans (List.suffix_append us _)

/-- A body of a statement is derived by some of its tokens behind the first one. -/
theorem Statement.exists_body (h : Statement ts s) :
    ∀ b ∈ s.bodies, ∃ t rest us, ts = t :: rest ∧ us <:+: rest ∧ Body us b := by
  cases h with
  | @branch _ _ cs us _ _ _ hbody =>
      refine List.forall_mem_singleton.mpr ⟨_, _, us, rfl, ?_, hbody⟩
      exact (suffix_append_cons cs _ us).isInfix
  | @branchElse _ _ _ cs us nl vs _ _ _ _ hbody _ helse =>
      have hrest : ∀ t ws, ws <:+ cs ++ t :: ws := suffix_append_cons cs
      refine List.forall_mem_cons.mpr ⟨⟨_, _, us, rfl, ?_, hbody⟩, ?_⟩
      · exact (List.prefix_append us _).isInfix.trans (hrest _ _).isInfix
      · refine List.forall_mem_singleton.mpr ⟨_, _, vs, rfl, List.IsSuffix.isInfix ?_, helse⟩
        exact (suffix_append_cons nl _ vs).trans ((List.suffix_append us _).trans (hrest _ _))
  | @count _ _ _ cs us _ _ _ hbody =>
      refine List.forall_mem_singleton.mpr ⟨_, _, us, rfl, List.IsSuffix.isInfix ?_, hbody⟩
      exact (suffix_append_cons cs _ us).trans (List.suffix_cons _ _)
  | @eachItem _ _ _ _ is us _ _ _ hbody =>
      refine List.forall_mem_singleton.mpr ⟨_, _, us, rfl, List.IsSuffix.isInfix ?_, hbody⟩
      exact (suffix_append_cons is _ us).trans (suffix_append_cons [_] _ _)
  | @eachOf _ _ ps us _ _ _ hbody =>
      refine List.forall_mem_singleton.mpr ⟨_, _, us, rfl, List.IsSuffix.isInfix ?_, hbody⟩
      exact (List.suffix_append ps us).trans (List.suffix_cons _ _)
  | assign => exact List.forall_mem_nil _
  | call => exact List.forall_mem_nil _

/-- Fewer than `n` tokens derive only statements, all of which are derived by some of them. -/
def FoundBelow (n : Nat) : Prop :=
  ∀ ts s, ts.length < n → Statement ts s → ∀ x ∈ s.nested, ∃ us, us <:+: ts ∧ Statement us x

/-- The statements in a body of few tokens are derived by some of them. -/
theorem Body.exists_statement {b : List Stmt} (hn : FoundBelow n) (hts : ts.length < n)
    (h : Body ts b) : ∀ x ∈ Stmt.nestedAll b, ∃ us, us <:+: ts ∧ Statement us x := by
  have hfound : ∀ {us s}, us <:+: ts → Statement us s →
      ∀ x ∈ s.nested, ∃ vs, vs <:+: ts ∧ Statement vs x := by
    intro us s hus hs x hx
    obtain ⟨vs, hvs, hx⟩ := hn us s (Nat.lt_of_le_of_lt hus.length_le hts) hs x hx
    exact ⟨vs, hvs.trans hus, hx⟩
  rw [Stmt.nestedAll_eq, List.forall_mem_flatMap]
  cases h with
  | @mk nl us vs semi first rest _ hfirst hmore _ =>
      refine List.forall_mem_cons.mpr ⟨hfound ⟨nl, vs ++ semi, by simp⟩ hfirst, fun s hs => ?_⟩
      obtain ⟨ws, hws, hfurther⟩ := hmore.exists_of_mem s hs
      cases hfurther with
      | @mk _ xs _ hs =>
          have hvs : vs <:+: nl ++ (us ++ (vs ++ semi)) := ⟨nl ++ us, semi, by simp⟩
          exact hfound ((List.suffix_cons _ xs).isInfix.trans (hws.trans hvs)) hs

/-- The same for any number of tokens. -/
theorem foundBelow (n : Nat) : FoundBelow n := by
  induction n with
  | zero => nofun
  | succ n ih =>
      intro ts s hts hs
      rw [Stmt.nested_eq, List.forall_mem_cons, List.forall_mem_flatMap]
      refine ⟨⟨ts, List.infix_refl ts, hs⟩, fun b hb x hx => ?_⟩
      obtain ⟨t, rest, us, rfl, hus, hbody⟩ := hs.exists_body b hb
      have hlt : us.length < n := Nat.lt_of_le_of_lt hus.length_le (Nat.lt_of_succ_lt_succ hts)
      obtain ⟨vs, hvs, hx⟩ := hbody.exists_statement ih hlt x hx
      exact ⟨vs, hvs.trans (hus.trans (List.suffix_cons t rest).isInfix), hx⟩

/-- Every statement of a program, at any depth, is derived by some of the tokens that derive the
program. -/
theorem Program.exists_statement {p : Edict.Program} (h : Program ts p) :
    ∀ s ∈ Stmt.nestedAll p, ∃ us, us <:+: ts ∧ Statement us s := by
  cases h with
  | empty => exact List.forall_mem_nil _
  | @statements seps us vs seps' first rest _ hfirst hmore _ =>
      have hfound : ∀ {ws s}, ws <:+: seps ++ (us ++ (vs ++ seps')) → Statement ws s →
          ∀ x ∈ s.nested, ∃ xs, xs <:+: seps ++ (us ++ (vs ++ seps')) ∧ Statement xs x := by
        intro ws s hws hs x hx
        obtain ⟨xs, hxs, hx⟩ := foundBelow _ ws s (Nat.lt_succ_self _) hs x hx
        exact ⟨xs, hxs.trans hws, hx⟩
      rw [Stmt.nestedAll_eq, List.forall_mem_flatMap]
      refine List.forall_mem_cons.mpr ⟨hfound ⟨seps, vs ++ seps', by simp⟩ hfirst, fun s hs => ?_⟩
      obtain ⟨ws, hws, hsep⟩ := hmore.exists_of_mem s hs
      cases hsep with
      | @mk t seps'' xs s _ _ hs =>
          have hvs : vs <:+: seps ++ (us ++ (vs ++ seps')) := ⟨seps ++ us, seps', by simp⟩
          have hxs : xs <:+ t :: (seps'' ++ xs) :=
            (List.suffix_append seps'' xs).trans (List.suffix_cons t _)
          exact hfound (hxs.isInfix.trans (hws.trans hvs)) hs

end statements

end Derives

end Edict
