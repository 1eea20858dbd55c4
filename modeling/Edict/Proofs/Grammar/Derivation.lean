import Edict.Grammar.Statement

/-!
# The grammar of the language

What the readers are measured against.  A derivation says that a list of tokens may be read as a
tree; the rules know nothing of readers, of look-ahead or of where a mistake is reported.  With
`sep` for a line break or `;`, and `nl` for a line break:

* `program = sep* (statement (sep+ statement)*)? sep*`
* `statement = if bool then body (nl* else body)? | for ( bool ) body
  | for each (array | place) body | place (= | += | -=) bool | call`
* `body = nl* statement (; statement)* ;?`
* `place = ident (. ident | [ bool ])*`
* `bool = term ((and | or | not) term)*`
* `term = ( bool ) | arith (comparison arith)?`
* `arith = primary ((+ | - | * | /) primary | negative number)*`
* `primary = text | number | true | false | call | place | object`

Arguments of calls, entries of objects (`text : bool`) and items of arrays (texts and numbers) are
separated by commas, with line breaks allowed after the opening bracket, around each comma and
before the closing bracket; calls and objects also take a comma after the last item.

The rules are ambiguous where statements meet: a `;` or an `else` may belong to more than one of the
bodies that are open.  Expressions are not ambiguous, so their rules also fix the tree: a chain is
folded by `Expr.ofLinks` or `Expr.ofTerms`.

## Main definitions

* `Expr.ofLinks`, `Expr.ofTerms`: the trees of an arithmetic chain and of a condition.
* `Derives.Boolean`, `Derives.Term`, `Derives.Arith`, `Derives.Primary`: the levels of expressions.
* `Derives.Statement`, `Derives.Body`, `Derives.Program`: statements, bodies and programs.
* `Derives.Star`, `Derives.Items`, `Derives.Delimited`: repetition and lists with commas.
-/

namespace Edict

/-! ## Trees of chains -/

namespace Expr

/-- Arithmetic from left to right, without precedence. -/
def foldLinks (first : Expr) (links : List (ArithOp × Expr)) : Expr :=
  links.foldl (fun left link => .arith left link.1 link.2) first

/-- Whether a link of a chain adds. -/
def adds (link : ArithOp × Expr) : Bool := link.1 == .add

/-- The tree of an arithmetic chain.  The additions that come first are one concatenation if the
chain begins with a text constant; all else is folded from the left. -/
def ofLinks (first : Expr) (links : List (ArithOp × Expr)) : Expr :=
  if first.isText ∧ (links.takeWhile adds) ≠ [] then
    foldLinks (.concat (first :: (links.takeWhile adds).map Prod.snd)) (links.dropWhile adds)
  else foldLinks first links

/-- A chain that no addition to a text begins is folded from the left. -/
theorem ofLinks_eq_foldLinks {first : Expr} {links : List (ArithOp × Expr)}
    (h : first.isText = true → ∀ l ∈ links.head?, l.1 ≠ .add) :
    ofLinks first links = foldLinks first links := by
  refine if_neg ?_
  rintro ⟨htext, hne⟩
  rcases links with _ | ⟨l, links⟩
  · exact hne rfl
  · have hl : adds l = false := by simpa [adds] using h htext l rfl
    exact hne (List.takeWhile_cons_of_neg (by simp [hl]))

/-- The additions to a text that begin a chain are one concatenation. -/
theorem ofLinks_append {first : Expr} {parts : List Expr} {links : List (ArithOp × Expr)}
    (htext : first.isText = true) (hparts : parts ≠ []) (h : ∀ l ∈ links.head?, l.1 ≠ .add) :
    ofLinks first (parts.map ((.add, ·)) ++ links) = foldLinks (.concat (first :: parts)) links := by
  have hall : ∀ l ∈ parts.map ((ArithOp.add, ·)), adds l = true := by simp [adds]
  have htake : links.takeWhile adds = [] := by
    rcases links with _ | ⟨l, links⟩
    · rfl
    · have hl : adds l = false := by simpa [adds] using h l rfl
      exact List.takeWhile_cons_of_neg (by simp [hl])
  have hdrop : links.dropWhile adds = links := by
    simpa [htake] using List.takeWhile_append_dropWhile (p := adds) (l := links)
  unfold ofLinks
  rw [List.takeWhile_append_of_pos hall, List.dropWhile_append_of_pos hall, htake, hdrop,
    List.append_nil, if_pos ⟨htext, by simpa using hparts⟩, List.map_map]
  simp [Function.comp_def]

/-- A run of terms joined by `and`, put to the right of what stands before it. -/
def joinRun : Option (Expr × Combinator) → Expr → Expr
  | none, run => run
  | some (left, op), run => .joined left op run

/-- The tree of terms, given what stands before the current run of terms joined by `and`, and that
run as far as it has been folded.  An `and` goes on with the run; `or` and `not` end it. -/
def joinFrom (before : Option (Expr × Combinator)) (run : Expr) : List (Combinator × Expr) → Expr
  | [] => joinRun before run
  | (.and, e) :: rest => joinFrom before (.joined run .and e) rest
  | (.or, e) :: rest => joinFrom (some (joinRun before run, .or)) e rest
  | (.not, e) :: rest => joinFrom (some (joinRun before run, .not)) e rest

/-- The tree of terms joined by combinators: the terms are cut at each `or` and `not`, each run of
`and` is folded from the left, and so are the runs. -/
def ofTerms (first : Expr) (rest : List (Combinator × Expr)) : Expr := joinFrom none first rest

/-- A run of `and` is folded before what follows it is looked at. -/
theorem joinFrom_append_of_and (before : Option (Expr × Combinator)) (run : Expr)
    {ands : List (Combinator × Expr)} (h : ∀ l ∈ ands, l.1 = .and)
    (rest : List (Combinator × Expr)) :
    joinFrom before run (ands ++ rest) = joinFrom before (joinFrom none run ands) rest := by
  induction ands generalizing run with
  | nil => rfl
  | cons l ands ih =>
      obtain ⟨op, e⟩ := l
      obtain rfl : op = .and := h (op, e) List.mem_cons_self
      exact ih _ fun l hl => h l (List.mem_cons_of_mem _ hl)

/-- `or` and `not` end the run before them. -/
theorem joinFrom_cons_of_ne_and (before : Option (Expr × Combinator)) (run e : Expr)
    {op : Combinator} (h : op ≠ .and) (rest : List (Combinator × Expr)) :
    joinFrom before run ((op, e) :: rest) = joinFrom (some (joinRun before run, op)) e rest := by
  cases op with
  | and => exact absurd rfl h
  | or => rfl
  | not => rfl

/-- The links that bind more tightly than a combinator form its right operand, up to the first one
that does not. -/
theorem joinFrom_split (left : Expr) (op : Combinator) (first : Expr)
    {inner outer : List (Combinator × Expr)}
    (hin : ∀ l ∈ inner, op.precedence < l.1.precedence)
    (hout : ∀ l ∈ outer.head?, l.1.precedence ≤ op.precedence) :
    joinFrom none left ((op, first) :: (inner ++ outer)) =
      joinFrom none (.joined left op (joinFrom none first inner)) outer := by
  have hands : ∀ l ∈ inner, l.1 = .and := by
    intro l hl
    have := hin l hl
    rcases l with ⟨_ | _ | _, e⟩ <;> cases op <;> first | rfl | simp [Combinator.precedence] at this
  by_cases hop : op = .and
  · -- nothing binds more tightly than `and`
    subst hop
    rcases inner with _ | ⟨l, inner⟩
    · rfl
    · have := hin l List.mem_cons_self
      rw [hands l List.mem_cons_self] at this
      exact absurd this (Nat.lt_irrefl _)
  · rw [joinFrom_cons_of_ne_and _ _ _ hop, joinFrom_append_of_and _ _ hands]
    rcases outer with _ | ⟨⟨op', e⟩, outer⟩
    · rfl
    · have hop' : op' ≠ .and := by
        rintro rfl
        have := hout _ rfl
        cases op <;> simp_all [Combinator.precedence]
      rw [joinFrom_cons_of_ne_and _ _ _ hop', joinFrom_cons_of_ne_and _ _ _ hop']
      rfl

end Expr

namespace Derives

/-! ## Repetition -/

/-- `p*`: pieces of a list one after the other. -/
inductive Star {α : Type} (p : List Token → α → Prop) : List Token → List α → Prop
  | nil : Star p [] []
  | cons {ts us : List Token} {a : α} {as : List α} :
      p ts a → Star p us as → Star p (ts ++ us) (a :: as)

/-- Pieces after pieces. -/
theorem Star.append {α : Type} {p : List Token → α → Prop} {ts us : List Token} {as bs : List α}
    (h : Star p ts as) (k : Star p us bs) : Star p (ts ++ us) (as ++ bs) := by
  induction h with
  | nil => exact k
  | cons ha _ ih =>
      rw [List.append_assoc]
      exact .cons ha ih

/-- `nl*`. -/
def Newlines (ts : List Token) : Prop := ∀ t ∈ ts, t.kind.isNewline = true

/-- `sep*`. -/
def Separators (ts : List Token) : Prop := ∀ t ∈ ts, t.kind.isSeparator = true

/-- `p nl* (, nl* p nl*)*`. -/
inductive Items {α : Type} (p : List Token → α → Prop) : List Token → List α → Prop
  | last {ts nl : List Token} {a : α} : p ts a → Newlines nl → Items p (ts ++ nl) [a]
  | more {ts nl nl' us : List Token} {s : Span} {a : α} {as : List α} :
      p ts a → Newlines nl → Newlines nl' → Items p us as →
      Items p (ts ++ (nl ++ ⟨.symbol .comma, s⟩ :: (nl' ++ us))) (a :: as)

/-- What stands between brackets: items, if there are any, with line breaks around them, and after
the last one a comma if `trailing` allows it. -/
inductive Delimited {α : Type} (trailing : Bool) (p : List Token → α → Prop) :
    List Token → List α → Prop
  | empty {nl : List Token} : Newlines nl → Delimited trailing p nl []
  | items {nl ts : List Token} {as : List α} :
      Newlines nl → Items p ts as → Delimited trailing p (nl ++ ts) as
  | comma {nl ts nl' : List Token} {s : Span} {as : List α} :
      trailing = true → Newlines nl → Items p ts as → Newlines nl' →
      Delimited trailing p (nl ++ (ts ++ ⟨.symbol .comma, s⟩ :: nl')) as

/-! ## Expressions -/

mutual

/-- `bool = term ((and | or | not) term)*`. -/
inductive Boolean : List Token → Expr → Prop
  | mk {ts us : List Token} {first : Expr} {rest : List (Combinator × Expr)} :
      Term ts first → Star Joined us rest → Boolean (ts ++ us) (Expr.ofTerms first rest)

/-- `(and | or | not) term`. -/
inductive Joined : List Token → Combinator × Expr → Prop
  | mk {op : Combinator} {s : Span} {ts : List Token} {e : Expr} :
      Term ts e → Joined (⟨.combinator op, s⟩ :: ts) (op, e)

/-- `term = ( bool ) | arith (comparison arith)?`. -/
inductive Term : List Token → Expr → Prop
  | parens {s t : Span} {ts : List Token} {e : Expr} : Boolean ts e →
      Term (⟨.symbol .lparen, s⟩ :: (ts ++ [⟨.symbol .rparen, t⟩])) e.parenthesize
  | value {ts : List Token} {e : Expr} : Arith ts e → Term ts e
  | compare {ts us : List Token} {c : Token} {op : CompareOp} {l r : Expr} :
      Arith ts l → c.kind.compareOp? = some op → Arith us r → Term (ts ++ c :: us) (.compare l op r)

/-- `arith = primary ((+ | - | * | /) primary | negative number)*`. -/
inductive Arith : List Token → Expr → Prop
  | mk {ts us : List Token} {first : Expr} {links : List (ArithOp × Expr)} :
      Primary ts first → Star Link us links → Arith (ts ++ us) (Expr.ofLinks first links)

/-- `(+ | - | * | /) primary | negative number`; a negative number is its magnitude subtracted. -/
inductive Link : List Token → ArithOp × Expr → Prop
  | op {t : Token} {ts : List Token} {op : ArithOp} {e : Expr} :
      t.kind.arithOp? = some op → Primary ts e → Link (t :: ts) (op, e)
  | negative {t : Token} {x : Float} :
      t.kind.negative? = some x → Link [t] (.sub, .lit (.number (-x)))

/-- `primary = text | number | true | false | call | place | object`. -/
inductive Primary : List Token → Expr → Prop
  | text {s : Span} {v : String} : Primary [⟨.text v, s⟩] (.lit (.text v))
  | number {s : Span} {n : Numeral} : Primary [⟨.number n, s⟩] (.lit (.number n.value))
  | bool {s : Span} {b : Bool} : Primary [⟨.bool b, s⟩] (.lit (.bool b))
  | call {ts : List Token} {f : String} {args : List Expr} : Call ts (f, args) →
      Primary ts (.call f args)
  | place {ts : List Token} {r : Reference} : Place ts r → Primary ts r.toExpr
  | object {s t : Span} {ts : List Token} {entries : List (String × Expr)} :
      Delimited true Entry ts entries →
      Primary (⟨.symbol .lbrace, s⟩ :: (ts ++ [⟨.symbol .rbrace, t⟩])) (.object entries)

/-- `call = ident ( arguments )`. -/
inductive Call : List Token → String × List Expr → Prop
  | mk {f : String} {s t u : Span} {ts : List Token} {args : List Expr} :
      Delimited true Boolean ts args →
      Call (⟨.ident f, s⟩ :: ⟨.symbol .lparen, t⟩ :: (ts ++ [⟨.symbol .rparen, u⟩])) (f, args)

/-- `place = ident (. ident | [ bool ])*`; with a step it is a property, and a name without. -/
inductive Place : List Token → Reference → Prop
  | ident {name : String} {s : Span} : Place [⟨.ident name, s⟩] (.ident name)
  | property {base : String} {s : Span} {ts : List Token} {path : List Step} :
      Star PathStep ts path → path ≠ [] → Place (⟨.ident base, s⟩ :: ts) (.property base path)

/-- `. ident | [ bool ]`. -/
inductive PathStep : List Token → Step → Prop
  | field {s t : Span} {name : String} :
      PathStep [⟨.symbol .dot, s⟩, ⟨.ident name, t⟩] (.field name)
  | index {s t : Span} {ts : List Token} {e : Expr} : Boolean ts e →
      PathStep (⟨.symbol .lbracket, s⟩ :: (ts ++ [⟨.symbol .rbracket, t⟩])) (.index e)

/-- `text : bool`. -/
inductive Entry : List Token → String × Expr → Prop
  | mk {name : String} {s t : Span} {ts : List Token} {e : Expr} : Boolean ts e →
      Entry (⟨.text name, s⟩ :: ⟨.symbol .colon, t⟩ :: ts) (name, e)

end

/-! ## Statements -/

/-- An item of an array: a text or a number. -/
inductive ArrayItem : List Token → Literal → Prop
  | mk {t : Token} {item : Literal} : t.kind.item? = some item → ArrayItem [t] item

/-- `;?`. -/
def Semicolon? (ts : List Token) : Prop := ts = [] ∨ ∃ s, ts = [⟨.symbol .semicolon, s⟩]

mutual

/-- A statement. -/
inductive Statement : List Token → Stmt → Prop
  | branch {s t : Span} {cs ts : List Token} {c : Expr} {b : List Stmt} :
      Boolean cs c → Body ts b →
      Statement (⟨.keyword .ifKw, s⟩ :: (cs ++ ⟨.keyword .thenKw, t⟩ :: ts)) (.branch c b none)
  | branchElse {s t u : Span} {cs ts nl us : List Token} {c : Expr} {b d : List Stmt} :
      Boolean cs c → Body ts b → Newlines nl → Body us d →
      Statement (⟨.keyword .ifKw, s⟩ ::
          (cs ++ ⟨.keyword .thenKw, t⟩ :: (ts ++ (nl ++ ⟨.keyword .elseKw, u⟩ :: us))))
        (.branch c b (some d))
  | count {s t u : Span} {cs ts : List Token} {c : Expr} {b : List Stmt} :
      Boolean cs c → Body ts b →
      Statement (⟨.keyword .forKw, s⟩ :: ⟨.symbol .lparen, t⟩ :: (cs ++ ⟨.symbol .rparen, u⟩ :: ts))
        (.count c b)
  | eachItem {s t u v : Span} {is ts : List Token} {items : List Literal} {b : List Stmt} :
      Delimited false ArrayItem is items → Body ts b →
      Statement (⟨.keyword .forKw, s⟩ :: ⟨.keyword .eachKw, t⟩ :: ⟨.symbol .lbracket, u⟩ ::
          (is ++ ⟨.symbol .rbracket, v⟩ :: ts))
        (.each (.literals items) b)
  | eachOf {s t : Span} {ps ts : List Token} {r : Reference} {b : List Stmt} :
      Place ps r → Body ts b →
      Statement (⟨.keyword .forKw, s⟩ :: ⟨.keyword .eachKw, t⟩ :: (ps ++ ts))
        (.each (.reference r) b)
  | assign {ps us : List Token} {t : Token} {r : Reference} {op : AssignOp} {e : Expr} :
      Place ps r → t.kind.assignOp? = some op → Boolean us e →
      Statement (ps ++ t :: us) (.assign r op e)
  | call {ts : List Token} {f : String} {args : List Expr} : Call ts (f, args) →
      Statement ts (.call f args)

/-- `body = nl* statement (; statement)* ;?`. -/
inductive Body : List Token → List Stmt → Prop
  | mk {nl ts us semi : List Token} {first : Stmt} {rest : List Stmt} :
      Newlines nl → Statement ts first → Star Further us rest → Semicolon? semi →
      Body (nl ++ (ts ++ (us ++ semi))) (first :: rest)

/-- `; statement`. -/
inductive Further : List Token → Stmt → Prop
  | mk {s : Span} {ts : List Token} {first : Stmt} :
      Statement ts first → Further (⟨.symbol .semicolon, s⟩ :: ts) first

end

/-- `sep+ statement`. -/
inductive Separated : List Token → Stmt → Prop
  | mk {t : Token} {seps ts : List Token} {s : Stmt} :
      t.kind.isSeparator = true → Separators seps → Statement ts s →
      Separated (t :: (seps ++ ts)) s

/-- `program = sep* (statement (sep+ statement)*)? sep*`. -/
inductive Program : List Token → Edict.Program → Prop
  | empty {seps : List Token} : Separators seps → Program seps []
  | statements {seps ts us seps' : List Token} {first : Stmt} {rest : List Stmt} :
      Separators seps → Statement ts first → Star Separated us rest → Separators seps' →
      Program (seps ++ (ts ++ (us ++ seps'))) (first :: rest)

/-- A name and the steps behind it are a place. -/
theorem Place.mk {root : String} {s : Span} {ts : List Token} {path : List Step}
    (h : Star PathStep ts path) : Place (⟨.ident root, s⟩ :: ts) (Reference.ofPath root path) := by
  cases h with
  | nil => exact .ident
  | cons hstep hmore => exact .property (.cons hstep hmore) (List.cons_ne_nil _ _)

/-- A place is a name and the steps behind it. -/
theorem Place.exists_path {ts : List Token} {r : Reference} (h : Place ts r) :
    ∃ root s us path, ts = ⟨.ident root, s⟩ :: us ∧ r = Reference.ofPath root path ∧
      Star PathStep us path := by
  cases h with
  | ident => exact ⟨_, _, [], [], rfl, rfl, .nil⟩
  | @property base s us path hpath hne =>
      obtain ⟨step, path, rfl⟩ := List.exists_cons_of_ne_nil hne
      exact ⟨base, s, us, step :: path, rfl, rfl, hpath⟩

/-- A primary is an arithmetic chain without links. -/
theorem Primary.arith {ts : List Token} {e : Expr} (h : Primary ts e) : Arith ts e := by
  simpa [Expr.ofLinks, Expr.foldLinks] using Arith.mk h .nil

/-- A term is an expression without combinators. -/
theorem Term.boolean {ts : List Token} {e : Expr} (h : Term ts e) : Boolean ts e := by
  simpa [Expr.ofTerms, Expr.joinFrom, Expr.joinRun] using Boolean.mk h .nil

end Derives

end Edict
