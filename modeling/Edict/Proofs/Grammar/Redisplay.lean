import Edict.Proofs.Grammar.Display
import Edict.Proofs.Grammar.Layout

/-!
# Reading back what is displayed

The text of an expression that was read is an expression again, and reading it gives the same tree
up to parentheses (`Program.ofSource_display`): those around one operand are not shown, and those
around two are always shown (`Expr.regrouped`).  Arithmetic is left out, because the grammar has no
parentheses around it.

The text is scanned as the tokens that it shows (`Expr.shows`), these derive the regrouped tree
(`Expr.reshown`), and what is derived is read.

## Main definitions

* `Expr.regrouped`: the tree with the parentheses that are shown, and no others.
* `Expr.isChain`: arithmetic, which is shown in parentheses that cannot be read.

## Main statements

* `Expr.reshown`: the tokens of a displayed expression derive its regrouped tree, if no arithmetic
  is anywhere in it.
* `Program.ofSource_display`: for every right side of an assignment in a program, with that
  condition, and with numbers whose texts read back.
-/

namespace Edict

open Grammar Derives

/-! ## Parentheses as they are displayed -/

mutual

/-- The expression with the parentheses of its text: none around one operand, and always some around
two. -/
def Expr.regrouped : Expr → Expr
  | .lit l => .lit l
  | .ident name => .ident name
  | .property base path => .property base (Step.regroupedAll path)
  | .call f args => .call f (Expr.regroupedAll args)
  | .object entries => .object (Expr.regroupedEntries entries)
  | .arith l op r => .arith l.regrouped op r.regrouped
  | .concat parts => .concat (Expr.regroupedAll parts)
  | .compare l op r => .compare l.regrouped op r.regrouped
  | .group l (some op) (some r) _ => .group l.regrouped (some op) (some r.regrouped) true
  | .group l _ _ _ => l.regrouped

/-- The same for several expressions. -/
def Expr.regroupedAll : List Expr → List Expr
  | [] => []
  | e :: es => e.regrouped :: Expr.regroupedAll es

/-- The same for the entries of an object. -/
def Expr.regroupedEntries : List (String × Expr) → List (String × Expr)
  | [] => []
  | (name, e) :: es => (name, e.regrouped) :: Expr.regroupedEntries es

/-- The same for a path. -/
def Step.regroupedAll : List Step → List Step
  | [] => []
  | .field name :: path => .field name :: Step.regroupedAll path
  | .index e :: path => .index e.regrouped :: Step.regroupedAll path

end

namespace Expr

/-- A group of a single operand is regrouped as its operand. -/
theorem regrouped_single (e : Expr) (combinator : Option Combinator) (b : Bool) :
    (group e combinator none b).regrouped = e.regrouped := by
  cases combinator <;> rfl

/-- Whether the node joins its operands by arithmetic. -/
def isChain : Expr → Bool
  | .arith _ _ _ => true
  | .concat _ => true
  | _ => false

/-- Arithmetic that joins nothing is a primary. -/
theorem isPrimary_of_not_isChain {e : Expr} (h : e.isArith = true) (hchain : e.isChain = false) :
    e.isPrimary = true := by
  cases e with
  | arith | concat => cases hchain
  | _ => first | rfl | cases h

/-- What the tokens of the text of an expression derive. -/
structure Reshown (e : Expr) : Prop where
  term : Term e.shown e.regrouped
  primary : e.isPrimary = true → Primary e.shown e.regrouped

/-- A primary is shown as one. -/
theorem Reshown.of_primary {e : Expr} (h : Primary e.shown e.regrouped) : e.Reshown :=
  ⟨.value h.arith, fun _ => h⟩

end Expr

/-! ## What is shown is derived -/

/-- Pieces with commas between them are items. -/
theorem Derives.Delimited.of_intercalate {α : Type} {p : List Token → α → Prop}
    {tss : List (List Token)} {as : List α} (h : List.Forall₂ p tss as) :
    Delimited true p ([Symbol.comma.token].intercalate tss) as := by
  have hitems : ∀ {ts a tss as}, List.Forall₂ p (ts :: tss) (a :: as) →
      Items p ([Symbol.comma.token].intercalate (ts :: tss)) (a :: as) := by
    intro ts a tss as h
    induction tss generalizing ts a as with
    | nil =>
        obtain ⟨ha, ⟨⟩⟩ := List.forall₂_cons.mp h
        simpa using Items.last ha .nil
    | cons us tss ih =>
        rcases h with _ | ⟨ha, hrest⟩
        rcases hrest with _ | ⟨hb, hrest⟩
        rw [List.intercalate_cons_cons, List.append_assoc]
        exact .more ha .nil .nil (ih (.cons hb hrest))
  cases h with
  | nil => exact .empty .nil
  | cons ha hrest => exact .items .nil (hitems (.cons ha hrest))

/-- Two terms with a combinator between them, in parentheses, are a group. -/
theorem Derives.Term.group {ts us : List Token} {l r : Expr} {op : Combinator} (hl : Term ts l)
    (hr : Term us r) :
    Term (Symbol.lparen.token ::
      ((ts ++ (TokenKind.combinator op).token :: us) ++ [Symbol.rparen.token]))
      (.group l (some op) (some r) true) := by
  have hjoined : Star Joined ((TokenKind.combinator op).token :: us ++ []) [(op, r)] :=
    .cons (.mk hr) .nil
  have hgroup : Expr.ofTerms l [(op, r)] = .joined l op r := by cases op <;> rfl
  have hboolean : Boolean _ _ := .mk hl hjoined
  rw [hgroup, List.append_nil] at hboolean
  exact .parens hboolean

mutual

/-- The tokens of the text of an expression without arithmetic derive it, up to parentheses. -/
theorem Expr.reshown : ∀ e : Expr, e.Shaped → e.Everywhere (·.isChain = false) → e.Reshown
  | .lit l, _, _ => .of_primary l.word_derives
  | .ident _, _, _ => .of_primary (.place .ident)
  | .property base path, h, hplain => by
      obtain ⟨hlen, hshaped⟩ := Expr.shaped_property.mp h
      have hpath := Step.reshownAll path hshaped (Expr.everywhere_property.mp hplain).2
      have hne : Step.regroupedAll path ≠ [] := by
        rcases path with _ | ⟨_ | _, _⟩ <;> first | cases hlen | exact List.cons_ne_nil _ _
      exact .of_primary (.place (.property hpath hne))
  | .call f args, h, hplain => by
      have hargs := Expr.reshownAll args (Expr.shaped_call.mp h) (Expr.everywhere_call.mp hplain).2
      exact .of_primary (.call (.mk (.of_intercalate hargs)))
  | .object entries, h, hplain => by
      have hentries := Expr.reshownEntries entries (Expr.shaped_object.mp h)
        (Expr.everywhere_object.mp hplain).2
      exact .of_primary (.object (.of_intercalate hentries))
  | .arith l op r, _, hplain => nomatch hplain.node
  | .concat parts, _, hplain => nomatch hplain.node
  | .compare l op r, h, hplain => by
      obtain ⟨⟨hlarith, hrarith⟩, hl, hr⟩ := Expr.shaped_compare.mp h
      obtain ⟨-, hlplain, hrplain⟩ := Expr.everywhere_compare.mp hplain
      have hleft := (Expr.reshown l hl hlplain).primary
        (Expr.isPrimary_of_not_isChain hlarith hlplain.node)
      have hright := (Expr.reshown r hr hrplain).primary
        (Expr.isPrimary_of_not_isChain hrarith hrplain.node)
      exact ⟨.compare hleft.arith op.compareOp?_word hright.arith, nofun⟩
  | .group e op none b, h, hplain => by
      have he := Expr.reshown e (Expr.shaped_single.mp h).2 (Expr.everywhere_single.mp hplain).2
      refine ⟨?_, nofun⟩
      rw [Expr.shown_single, Expr.regrouped_single]
      exact he.term
  | .group _ none (some _) _, h, _ => absurd h Expr.not_shaped_group
  | .group l (some op) (some r) _, h, hplain => by
      obtain ⟨-, hl, hr⟩ := Expr.shaped_group.mp h
      obtain ⟨-, hlplain, hrplain⟩ := Expr.everywhere_group.mp hplain
      exact ⟨(Expr.reshown l hl hlplain).term.group (Expr.reshown r hr hrplain).term, nofun⟩

/-- The same for several expressions. -/
theorem Expr.reshownAll : ∀ es : List Expr, (∀ e ∈ es, e.Shaped) →
    (∀ e ∈ es, e.Everywhere (·.isChain = false)) →
      List.Forall₂ Boolean (Expr.shownAll es) (Expr.regroupedAll es)
  | [], _, _ => .nil
  | e :: es, h, hplain => by
      obtain ⟨he, hes⟩ := List.forall_mem_cons.mp h
      obtain ⟨heplain, hesplain⟩ := List.forall_mem_cons.mp hplain
      exact .cons (Expr.reshown e he heplain).term.boolean (Expr.reshownAll es hes hesplain)

/-- The same for the entries of an object. -/
theorem Expr.reshownEntries : ∀ es : List (String × Expr), (∀ entry ∈ es, entry.2.Shaped) →
    (∀ entry ∈ es, entry.2.Everywhere (·.isChain = false)) →
      List.Forall₂ Entry (Expr.shownEntries es) (Expr.regroupedEntries es)
  | [], _, _ => .nil
  | (name, e) :: es, h, hplain => by
      obtain ⟨he, hes⟩ := List.forall_mem_cons.mp h
      obtain ⟨heplain, hesplain⟩ := List.forall_mem_cons.mp hplain
      exact .cons (.mk (Expr.reshown e he heplain).term.boolean)
        (Expr.reshownEntries es hes hesplain)

/-- The same for a path. -/
theorem Step.reshownAll : ∀ path : List Step, (∀ e, .index e ∈ path → e.Shaped) →
    (∀ e, .index e ∈ path → e.Everywhere (·.isChain = false)) →
      Star PathStep (Step.shownAll path) (Step.regroupedAll path)
  | [], _, _ => .nil
  | .field name :: path, h, hplain =>
      .cons .field (Step.reshownAll path (fun e he => h e (List.mem_cons_of_mem _ he))
        fun e he => hplain e (List.mem_cons_of_mem _ he))
  | .index e :: path, h, hplain => by
      have hindex := (Expr.reshown e (h e List.mem_cons_self) (hplain e List.mem_cons_self)).term
      have hpath := Step.reshownAll path (fun e he => h e (List.mem_cons_of_mem _ he))
        fun e he => hplain e (List.mem_cons_of_mem _ he)
      exact .cons (.index hindex.boolean) hpath

end

/-! ## What is displayed is read -/

/-- An assignment to a variable is read from its tokens. -/
theorem readProgram_assignment {ts : List Token} {e : Expr} (h : Boolean ts e) (name : String) :
    readProgram ([(TokenKind.ident name).token] ++ Symbol.eq.token :: ts ++ [TokenKind.eof.token]) =
      .ok [.assign (.ident name) .set e] := by
  have hplace : Place [(TokenKind.ident name).token] (.ident name) := .ident
  have hend : EndsAt 1 [TokenKind.eof.token] := Nat.zero_lt_one
  obtain ⟨_, hread⟩ : Gives (readStatement ((TokenKind.ident name).token ::
      Symbol.eq.token :: (ts ++ [TokenKind.eof.token]))) (.assign (.ident name) .set e)
      [TokenKind.eof.token] := by
    rw [readStatement]
    exact statement_assign hplace (t := Symbol.eq.token) rfl h hend _
  have hname : TokenKind.ident name ≠ .eof := by simp
  rw [List.append_assoc, List.singleton_append, List.cons_append, readProgram_of_statement rfl hname,
    hread]
  show (do
    statementEnd [TokenKind.eof.token]
    let more ← readProgram [TokenKind.eof.token]
    return _ :: more) = Except.ok [_]
  rw [statementEnd_of_endsStatement rfl, readProgram_of_eof rfl]
  rfl

namespace Program

/-- A text that shows the tokens of a program is this program. -/
theorem ofSource_of_shows {source : String} {ts : List Token} {p : Edict.Program}
    (hs : Shows source ts) (hread : readProgram (ts ++ [TokenKind.eof.token]) = .ok p) :
    ofSource source = .ok p := by
  obtain ⟨us, htakes, hkinds⟩ := hs [] nofun 0
  have hscan : Token.scan source = _ := htakes.scans.scanFrom_eq
  generalize Span.ofRange _ _ = span at hscan
  have hsame : (us ++ [Token.mk .eof span]).map (·.kind) =
      (ts ++ [TokenKind.eof.token]).map (·.kind) := by simp [hkinds]
  refine ofSource_eq_ok.mpr ⟨_, hscan, ?_⟩
  rcases readProgram_of_kinds hsame with ⟨q, hq, hq'⟩ | ⟨f, g, hf, -⟩
  · rw [hread] at hq
    cases hq
    exact hq'
  · rw [hread] at hf
    cases hf

/-- The right side of any assignment in a program, displayed and assigned to a variable, is read
back: the text is a program of one assignment, of the same expression with the parentheses of its
display. The expression must have no arithmetic in it, no single quotes in its texts and names of
entries, and only finite numbers that read back from their texts. -/
theorem ofSource_display {source : String} {p : Edict.Program} {target : Reference} {op : AssignOp}
    {e : Expr} (hp : ofSource source = .ok p) (he : .assign target op e ∈ Stmt.nestedAll p)
    (hplain : ∀ x ∈ e.subterms, x.isChain = false)
    (htexts : ∀ x ∈ e.subterms, ∀ s ∈ x.ownTexts, '\'' ∉ s.toList)
    (hnumbers : ∀ x ∈ e.subterms, ∀ y ∈ x.number?,
      y.isFinite = true ∧ Number.ofText? (Number.text y) = some y) :
    ofSource ("$x = " ++ e.display) = .ok [.assign (.ident "$x") .set e.regrouped] := by
  obtain ⟨ts, hboolean, hnames⟩ :=
    exists_boolean hp _ he e (List.mem_cons_of_mem _ List.mem_cons_self)
  have hlegible : e.Legible := fun x hx =>
    ⟨hboolean.named hnames x hx, htexts x hx, hnumbers x hx⟩
  have hvariable : IsName "$x" :=
    .of_chars (by decide : _ = ['$', 'x']) (by decide) (by decide) (by decide)
  have hleft : Shows "$x" [(TokenKind.ident "$x").token] :=
    fun _ hrest => .name hvariable hrest.not_continuesName
  have hshows : Shows ("$x" ++ " " ++ "=" ++ " " ++ e.display)
      ([(TokenKind.ident "$x").token] ++ Symbol.eq.token :: e.shown) :=
    hleft.operation (.inl (by decide)) (Expr.shows e hlegible)
  have htext : "$x = " = "$x" ++ " " ++ "=" ++ " " := by decide
  rw [htext]
  exact ofSource_of_shows hshows
    (readProgram_assignment (Expr.reshown e hboolean.shaped hplain).term.boolean "$x")

/-- `if a then $r = f({'k': (b and (1.5 < c[(d)].e))}, -2)`: the comparison and the index lose their
parentheses, the condition keeps its own. -/
theorem ofSource_display_call :
    ofSource "$x = f(\x7b'k': (b and 1.5 < c[d].e)\x7d, -2)" =
      .ok [.assign (.ident "$x") .set
        (.call "f" [.object [("k", .group (.ident "b") (some .and)
          (some (.compare (.lit (.number 1.5)) .lt
            (.property "c" [.index (.ident "d"), .field "e"])))
          true)], .lit (.number (-2))])] := by
  let e : Expr := .call "f" [.object [("k", .group (.ident "b") (some .and)
    (some (.paren (.compare (.lit (.number 1.5)) .lt
      (.property "c" [.index (.paren (.ident "d")), .field "e"])))) true)], .lit (.number (-2))]
  have hp : ofSource "if a then $r = f(\x7b'k': (b and (1.5 < c[(d)].e))\x7d, -2)" =
      .ok [.branch (.ident "a") [.assign (.ident "$r") .set e] none] := by
    refine ofSource_eq_ok.mpr ⟨[⟨.keyword .ifKw, ⟨0, 2⟩⟩, ⟨.ident "a", ⟨3, 4⟩⟩,
      ⟨.keyword .thenKw, ⟨5, 9⟩⟩, ⟨.ident "$r", ⟨10, 12⟩⟩, ⟨.symbol .eq, ⟨13, 14⟩⟩,
      ⟨.ident "f", ⟨15, 16⟩⟩, ⟨.symbol .lparen, ⟨16, 17⟩⟩, ⟨.symbol .lbrace, ⟨17, 18⟩⟩,
      ⟨.text "k", ⟨18, 21⟩⟩, ⟨.symbol .colon, ⟨21, 22⟩⟩, ⟨.symbol .lparen, ⟨23, 24⟩⟩,
      ⟨.ident "b", ⟨24, 25⟩⟩, ⟨.combinator .and, ⟨26, 29⟩⟩, ⟨.symbol .lparen, ⟨30, 31⟩⟩,
      ⟨.number (.ofWritten false 1.5), ⟨31, 34⟩⟩, ⟨.symbol .lt, ⟨35, 36⟩⟩, ⟨.ident "c", ⟨37, 38⟩⟩,
      ⟨.symbol .lbracket, ⟨38, 39⟩⟩, ⟨.symbol .lparen, ⟨39, 40⟩⟩, ⟨.ident "d", ⟨40, 41⟩⟩,
      ⟨.symbol .rparen, ⟨41, 42⟩⟩, ⟨.symbol .rbracket, ⟨42, 43⟩⟩, ⟨.symbol .dot, ⟨43, 44⟩⟩,
      ⟨.ident "e", ⟨44, 45⟩⟩, ⟨.symbol .rparen, ⟨45, 46⟩⟩, ⟨.symbol .rparen, ⟨46, 47⟩⟩,
      ⟨.symbol .rbrace, ⟨47, 48⟩⟩, ⟨.symbol .comma, ⟨48, 49⟩⟩,
      ⟨.number (.ofWritten false (-2)), ⟨50, 52⟩⟩, ⟨.symbol .rparen, ⟨52, 53⟩⟩, ⟨.eof, ⟨53, 53⟩⟩],
      by decide +kernel, by with_unfolding_all rfl⟩
  have hdisplay : "$x = " ++ e.display = "$x = f(\x7b'k': (b and 1.5 < c[d].e)\x7d, -2)" := by
    decide +kernel
  have he : Stmt.assign (.ident "$r") .set e ∈
      Stmt.nestedAll [.branch (.ident "a") [.assign (.ident "$r") .set e] none] :=
    List.mem_cons_of_mem _ List.mem_cons_self
  rw [← hdisplay]
  exact ofSource_display hp he (by decide) (by decide +kernel) (by decide +kernel)

end Program

end Edict
