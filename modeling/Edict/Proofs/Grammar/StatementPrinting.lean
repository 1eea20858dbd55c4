import Edict.Proofs.Grammar.ExpressionPrinting
import Edict.Proofs.Grammar.StatementComplete

/-!
# Printing programs

The printer that reading inverts: every program of the right shape is read back from the tokens that
it is printed as, tree for tree (`readProgram_print`).

The grammar of statements does not fix the tree; the reader does, and it takes as much as it can.
So every statement is printed with a semicolon behind it, also the last one of a body: a semicolon
that no statement follows ends the innermost open body and nothing else (`Stmt.body_print`).  Where
several bodies end, as many semicolons stand in a row, and an `else` behind them belongs to the
branch that is still open.

## Main definitions

* `Stmt.print`, `Program.print`: the tokens that statements and programs are printed as.
* `Stmt.Reads`: a printed statement is read back, in front of any rest.

## Main statements

* `Stmt.reads`: every statement whose parts have the right shape.
* `readProgram_print`: for every program of the right shape.
-/

namespace Edict

open Grammar Derives

/-! ## The printer -/

/-- The token of a keyword that stands in no text. -/
abbrev Keyword.token (k : Keyword) : Token := (TokenKind.keyword k).token

/-- The sign of an assignment. -/
def AssignOp.sign : AssignOp → Symbol
  | .set => .eq
  | .add => .plusEq
  | .sub => .minusEq

/-- An assignment is read off its sign. -/
theorem AssignOp.assignOp?_sign (op : AssignOp) :
    (TokenKind.symbol op.sign).assignOp? = some op := by
  cases op <;> rfl

/-- The tokens of the items of an array, with a comma between them. -/
def Literal.printAll : List Literal → List Token
  | [] => []
  | [l] => [l.word.token]
  | l :: ls => l.word.token :: Symbol.comma.token :: Literal.printAll ls

/-- The tokens of what a loop runs through. -/
def Source.print : Source → List Token
  | .literals items => Symbol.lbracket.token :: (Literal.printAll items ++ [Symbol.rbracket.token])
  | .reference place => place.toExpr.print

mutual

/-- The tokens of a statement. -/
def Stmt.print : Stmt → List Token
  | .assign target op value => target.toExpr.print ++ op.sign.token :: value.print
  | .branch c t none => Keyword.ifKw.token :: (c.print ++ Keyword.thenKw.token :: Stmt.printAll t)
  | .branch c t (some e) =>
      Keyword.ifKw.token :: (c.print ++ Keyword.thenKw.token ::
        (Stmt.printAll t ++ Keyword.elseKw.token :: Stmt.printAll e))
  | .count limit body =>
      Keyword.forKw.token :: Symbol.lparen.token ::
        (limit.print ++ Symbol.rparen.token :: Stmt.printAll body)
  | .each source body =>
      Keyword.forKw.token :: Keyword.eachKw.token :: (source.print ++ Stmt.printAll body)
  | .call f args => (Expr.call f args).print

/-- The tokens of statements, with a semicolon behind each. -/
def Stmt.printAll : List Stmt → List Token
  | [] => []
  | s :: rest => s.print ++ Symbol.semicolon.token :: Stmt.printAll rest

end

/-- The tokens of a program. -/
def Program.print (p : Program) : List Token := Stmt.printAll p

/-! ## What is printed is read -/

/-- Items of an array are derived by their tokens. -/
theorem Literal.printAll_derives (items : List Literal)
    (h : ∀ item ∈ items, item.isItem = true) :
    Delimited false ArrayItem (Literal.printAll items) items := by
  have hitem : ∀ {item : Literal}, item.isItem = true → ArrayItem [item.word.token] item := by
    rintro (_ | _ | _) h
    · exact .mk rfl
    · exact .mk (by simp [Literal.word, TokenKind.item?])
    · cases h
  have hitems : ∀ item items, (∀ i ∈ item :: items, i.isItem = true) →
      Items ArrayItem (Literal.printAll (item :: items)) (item :: items) := by
    intro item items
    induction items generalizing item with
    | nil => exact fun h => .last (hitem (h item List.mem_cons_self)) .nil
    | cons next items ih =>
        intro h
        obtain ⟨hfirst, hrest⟩ := List.forall_mem_cons.mp h
        exact .more (hitem hfirst) .nil .nil (ih next hrest)
  rcases items with _ | ⟨item, items⟩
  · exact .empty .nil
  · exact .items .nil (hitems item items h)

namespace Stmt

/-- The statement is read from its tokens, in front of any semicolon. -/
def Reads (s : Stmt) : Prop :=
  ∀ rest, Gives (readStatement (s.print ++ Symbol.semicolon.token :: rest)) s
    (Symbol.semicolon.token :: rest)

/-- A statement is printed with a token in front that begins one. -/
theorem startsStatement_print (s : Stmt) (rest : List Token) :
    startsStatement (s.print ++ rest) = true := by
  cases s with
  | branch c t e => cases e <;> rfl
  | assign target op value => cases target <;> rfl
  | _ => rfl

variable {limit : Nat} {b : List Stmt} {rest : List Token}

/-- The reader for the statements of bodies. -/
def inner (limit : Nat) : Inner limit := fun ts _ => readStatement ts

/-- The first of the tokens of statements, up to what follows the semicolon behind it. -/
theorem printAll_append (s : Stmt) (b : List Stmt) (rest : List Token) :
    printAll (s :: b) ++ rest = s.print ++ Symbol.semicolon.token :: (printAll b ++ rest) := by
  rw [printAll, List.append_assoc, List.cons_append]

/-- The further statements of a body are read from their tokens, and no semicolon that is not one of
these. -/
theorem bodyFrom_print (hb : ∀ s ∈ b, s.Reads) (hrest : startsStatement rest = false) :
    ∀ h, Gives (bodyFrom (inner limit) (Symbol.semicolon.token :: (printAll b ++ rest)) h) b rest := by
  induction b with
  | nil =>
      intro h
      have hrest : ¬ startsStatement (printAll [] ++ rest) = true := by simpa [printAll] using hrest
      rw [bodyFrom, if_neg hrest]
      exact gives_of_eq_ok rfl
  | cons s b ih =>
      rw [printAll_append]
      intro h
      obtain ⟨hs, hb⟩ := List.forall_mem_cons.mp hb
      have hstarts := startsStatement_print s (Symbol.semicolon.token :: (printAll b ++ rest))
      rw [bodyFrom, if_pos hstarts]
      refine (hs _).bind fun _ => ?_
      exact (ih hb _).bind fun _ => gives_of_eq_ok rfl

/-- A body is read from its tokens, with the semicolon behind its last statement, where no statement
follows. -/
theorem body_print (hb : ∀ s ∈ b, s.Reads) (hne : b ≠ []) (hrest : startsStatement rest = false) :
    ∀ h, Gives (body (inner limit) (printAll b ++ rest) h) b rest := by
  rcases b with _ | ⟨s, b⟩
  · exact absurd rfl hne
  · rw [printAll_append]
    intro h
    obtain ⟨hs, hb⟩ := List.forall_mem_cons.mp hb
    have hstarts := startsStatement_print s (Symbol.semicolon.token :: (printAll b ++ rest))
    have hread := hs (printAll b ++ rest)
    rw [← (skip_of_startsStatement hstarts).1] at hread
    refine hread.bind fun _ => ?_
    exact (bodyFrom_print hb hrest _).bind fun _ => gives_of_eq_ok rfl

/-- A statement is read if it is with the reader for the statements of its bodies. -/
theorem reads_of_statement {s : Stmt}
    (h : ∀ limit rest h, Gives (statement (inner limit) (s.print ++ Symbol.semicolon.token :: rest) h) s
      (Symbol.semicolon.token :: rest)) : s.Reads := by
  intro rest
  rw [readStatement]
  exact h _ rest _

variable {c : Expr} {t e : List Stmt}

/-- A branch without `else` is read from its tokens. -/
theorem branch_reads (hc : c.Shaped) (ht : ∀ s ∈ t, s.Reads) (hne : t ≠ []) :
    (Stmt.branch c t none).Reads := by
  apply reads_of_statement
  intro limit rest
  rw [print, List.cons_append, List.append_assoc, List.cons_append]
  intro h
  have hnext : ∀ s after, Token.skipNewlines (Symbol.semicolon.token :: rest) ≠
      ⟨.keyword .elseKw, s⟩ :: after := by
    rw [skipNewlines_cons rfl]
    nofun
  have hbranch := branch_no_else
    (Expr.readCondition_print hc Nat.zero_lt_one) (body_print ht hne rfl) hnext (Nat.lt_of_succ_le h)
  exact hbranch.bind fun _ => gives_of_eq_ok rfl

/-- A branch with `else` is read from its tokens. -/
theorem branchElse_reads (hc : c.Shaped) (ht : ∀ s ∈ t, s.Reads) (hne : t ≠ [])
    (he : ∀ s ∈ e, s.Reads) (hne' : e ≠ []) : (Stmt.branch c t (some e)).Reads := by
  apply reads_of_statement
  intro limit rest
  rw [print, List.cons_append, List.append_assoc, List.cons_append, List.append_assoc,
    List.cons_append]
  intro h
  have hbranch := branch_else (Expr.readCondition_print hc Nat.zero_lt_one)
    (body_print ht hne rfl) (skipNewlines_cons rfl _) (body_print he hne' rfl) (Nat.lt_of_succ_le h)
  exact hbranch.bind fun _ => gives_of_eq_ok rfl

/-- A counting loop is read from its tokens. -/
theorem count_reads (hc : c.Shaped) (ht : ∀ s ∈ t, s.Reads) (hne : t ≠ []) :
    (Stmt.count c t).Reads := by
  apply reads_of_statement
  intro limit rest
  rw [print, List.cons_append, List.cons_append, List.append_assoc, List.cons_append]
  intro h
  have hend : EndsAt 1 (Symbol.rparen.token :: (printAll t ++ Symbol.semicolon.token :: rest)) :=
    Nat.zero_lt_one
  have hloop : Gives (loop (inner limit) _ (Nat.lt_of_succ_le h)) (Stmt.count c t) _ :=
    (Expr.readExpression_print hc hend).bind fun _ => (gives_sign .rparen _ _).bind fun _ =>
      (body_print ht hne rfl _).bind fun _ => gives_of_eq_ok rfl
  exact hloop.bind fun _ => gives_of_eq_ok rfl

/-- A loop over the items of an array is read from its tokens. -/
theorem eachItem_reads {items : List Literal} (hitems : ∀ item ∈ items, item.isItem = true)
    (ht : ∀ s ∈ t, s.Reads) (hne : t ≠ []) : (Stmt.each (.literals items) t).Reads := by
  apply reads_of_statement
  intro limit rest
  rw [print, Source.print, List.cons_append, List.cons_append, List.append_assoc, List.cons_append,
    List.append_assoc, List.singleton_append]
  intro h
  have harray := arrayLiteral_complete (Literal.printAll_derives items hitems) Span.nowhere
    Span.nowhere (printAll t ++ Symbol.semicolon.token :: rest)
  have hloop : Gives (loop (inner limit) _ (Nat.lt_of_succ_le h)) (Stmt.each (.literals items) t) _ :=
    harray.bind fun _ => (body_print ht hne rfl _).bind fun _ => gives_of_eq_ok rfl
  exact hloop.bind fun _ => gives_of_eq_ok rfl

/-- Statements begin with no step of a path and no parenthesis. -/
theorem endsAt_print (hne : t ≠ []) (rest : List Token) : EndsAt 4 (printAll t ++ rest) := by
  rcases t with _ | ⟨s, t⟩
  · exact absurd rfl hne
  · cases s with
    | branch c t e => cases e <;> exact Nat.zero_lt_succ 3
    | assign target op value => cases target <;> exact Nat.zero_lt_succ 3
    | _ => exact Nat.zero_lt_succ 3

/-- A loop over the elements of a value is read from its tokens. -/
theorem eachOf_reads {place : Reference} (hplace : place.toExpr.Shaped)
    (ht : ∀ s ∈ t, s.Reads) (hne : t ≠ []) : (Stmt.each (.reference place) t).Reads := by
  apply reads_of_statement
  intro limit rest
  have hread := reference_complete (Reference.print_derives hplace)
    (endsAt_print hne (Symbol.semicolon.token :: rest))
  rw [print, Source.print, List.cons_append, List.cons_append, List.append_assoc]
  obtain ⟨us, hus⟩ := place.exists_print
  rw [hus] at hread ⊢
  intro h
  have hloop : Gives (loop (inner limit) _ (Nat.lt_of_succ_le h))
      (Stmt.each (.reference place) t) _ :=
    hread.bind fun _ => (body_print ht hne rfl _).bind fun _ => gives_of_eq_ok rfl
  exact hloop.bind fun _ => gives_of_eq_ok rfl

/-- An assignment is read from its tokens. -/
theorem assign_reads {target : Reference} {op : AssignOp} (htarget : target.toExpr.Shaped)
    (hc : c.Shaped) : (Stmt.assign target op c).Reads := by
  apply reads_of_statement
  intro limit rest
  rw [print, List.append_assoc, List.cons_append]
  have hend : EndsAt 1 (Symbol.semicolon.token :: rest) := Nat.zero_lt_one
  exact statement_assign (Reference.print_derives htarget) op.assignOp?_sign
    (Expr.printed c hc).boolean hend

/-- A call is read from its tokens. -/
theorem call_reads {f : String} {args : List Expr} (hargs : ∀ e ∈ args, e.Shaped) :
    (Stmt.call f args).Reads := by
  apply reads_of_statement
  intro limit rest
  rw [print]
  intro h
  have hcall : Call (Expr.call f args).print (f, args) := .mk (Expr.printAll_derives args hargs)
  exact (call_complete hcall _).bind fun _ => gives_of_eq_ok rfl

end Stmt

mutual

/-- A statement that has a shape is read from its tokens. -/
theorem Stmt.reads : ∀ s : Stmt, Program.Shaped [s] → s.Reads
  | .assign target op value, h => by
      obtain ⟨-, -, hoperands⟩ := Stmt.shaped_iff.mp h
      exact assign_reads (hoperands _ List.mem_cons_self)
        (hoperands _ (List.mem_cons_of_mem _ List.mem_cons_self))
  | .branch c t none, h => by
      obtain ⟨hbodies, -, hoperands⟩ := Stmt.shaped_iff.mp h
      obtain ⟨hne, ht⟩ := hbodies t List.mem_cons_self
      exact branch_reads (hoperands c List.mem_cons_self) (Stmt.readsAll t ht) hne
  | .branch c t (some e), h => by
      obtain ⟨hbodies, -, hoperands⟩ := Stmt.shaped_iff.mp h
      obtain ⟨hne, ht⟩ := hbodies t List.mem_cons_self
      obtain ⟨hne', he⟩ := hbodies e (List.mem_cons_of_mem _ List.mem_cons_self)
      exact branchElse_reads (hoperands c List.mem_cons_self) (Stmt.readsAll t ht) hne
        (Stmt.readsAll e he) hne'
  | .count limit body, h => by
      obtain ⟨hbodies, -, hoperands⟩ := Stmt.shaped_iff.mp h
      obtain ⟨hne, hbody⟩ := hbodies body List.mem_cons_self
      exact count_reads (hoperands limit List.mem_cons_self) (Stmt.readsAll body hbody) hne
  | .each (.literals items) body, h => by
      obtain ⟨hbodies, hitems, -⟩ := Stmt.shaped_iff.mp h
      obtain ⟨hne, hbody⟩ := hbodies body List.mem_cons_self
      exact eachItem_reads hitems (Stmt.readsAll body hbody) hne
  | .each (.reference place) body, h => by
      obtain ⟨hbodies, -, hoperands⟩ := Stmt.shaped_iff.mp h
      obtain ⟨hne, hbody⟩ := hbodies body List.mem_cons_self
      exact eachOf_reads (hoperands _ List.mem_cons_self) (Stmt.readsAll body hbody) hne
  | .call f args, h => by
      obtain ⟨-, -, hoperands⟩ := Stmt.shaped_iff.mp h
      exact call_reads hoperands

/-- Statements that have a shape are read from their tokens, each in front of the semicolon behind
it. -/
theorem Stmt.readsAll : ∀ b : List Stmt, Program.Shaped b → ∀ s ∈ b, s.Reads
  | [], _ => nofun
  | s :: b, h => by
      obtain ⟨hs, hb⟩ := List.forall_mem_cons.mp (Program.shaped_iff.mp h)
      exact List.forall_mem_cons.mpr ⟨Stmt.reads s hs, Stmt.readsAll b (Program.shaped_iff.mpr hb)⟩

end

/-- Nothing separates statements in front of their tokens. -/
theorem skipSeparators_printAll (p : List Stmt) :
    Token.skipSeparators (Stmt.printAll p) = Stmt.printAll p := by
  rcases p with _ | ⟨s, p⟩
  · rfl
  · exact (skip_of_startsStatement (Stmt.startsStatement_print s _)).2

/-- Statements are read as a program from their tokens, whatever separators stand in front. -/
theorem readProgram_printAll {p : Program} (hp : ∀ s ∈ p, s.Reads) {ts : List Token}
    (hts : Token.skipSeparators ts = Stmt.printAll p) : readProgram ts = .ok p := by
  induction p generalizing ts with
  | nil =>
      apply readProgram_of_eof
      rw [hts]
      rfl
  | cons s p ih =>
      obtain ⟨hs, hp⟩ := List.forall_mem_cons.mp hp
      have hgives := hs (Stmt.printAll p)
      have hend : statementEnd (Symbol.semicolon.token :: Stmt.printAll p) = .ok () :=
        statementEnd_of_endsStatement rfl
      have hrest : readProgram (Symbol.semicolon.token :: Stmt.printAll p) = .ok p :=
        ih hp (skipSeparators_printAll p)
      have hstarts := Stmt.startsStatement_print s (Symbol.semicolon.token :: Stmt.printAll p)
      have hstop := endsStatement_of_startsStatement hstarts
      rw [Stmt.printAll] at hts
      rcases hcons : s.print ++ Symbol.semicolon.token :: Stmt.printAll p with _ | ⟨t, rest⟩
      · rw [hcons] at hstarts
        cases hstarts
      · rw [hcons] at hgives hstop hts
        obtain ⟨_, hread⟩ := hgives
        have ht : t.kind ≠ .eof := by
          intro ht
          rw [peek_cons, ht] at hstop
          cases hstop
        rw [readProgram_of_statement hts ht, hread]
        show (do
          statementEnd (Symbol.semicolon.token :: Stmt.printAll p)
          let more ← readProgram (Symbol.semicolon.token :: Stmt.printAll p)
          return s :: more) = Except.ok (s :: p)
        rw [hend, hrest]
        rfl

/-- Every program that has a shape is read back from the tokens that it is printed as: the tree is
the same one, with the marks of its groups and the bodies of its statements. -/
theorem readProgram_print (p : Program) (h : p.Shaped) : readProgram p.print = .ok p :=
  readProgram_printAll (Stmt.readsAll p h) (skipSeparators_printAll p)

/-- `if a then if b then x = 1 ; ; if c then y = 2 ; ; else for each [ ] z = 3 ; ; ;`: the body goes
on behind one inner branch, and behind the other one stands the `else` of the outer branch. -/
theorem readProgram_print_branches :
    let p : Program := [.branch (.ident "a")
      [.branch (.ident "b") [.assign (.ident "x") .set (.lit (.number 1))] none,
        .branch (.ident "c") [.assign (.ident "y") .set (.lit (.number 2))] none]
      (some [.each (.literals []) [.assign (.ident "z") .set (.lit (.number 3))]])]
    p.Shaped ∧ readProgram p.print = .ok p := by
  intro p
  have hp : p.Shaped := by decide
  exact ⟨hp, readProgram_print p hp⟩

end Edict
