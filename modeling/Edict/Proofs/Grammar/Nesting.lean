import Edict.Proofs.Grammar.Bodies

/-!
# Which body a statement belongs to

A statement inside bodies that are still open is read with them waiting: each of them is an
`OpenBody`, and in a list of them the innermost one comes first.  `Resumes fs b ts s rest` says how
reading goes on behind the statements `b` of the innermost body, and `Holds fs b s` where that body
is in the tree.

Bodies opened one right after the other (`Derives.Opens`) all wait behind the simple statement that
they end in (`Derives.Opens.simple_iff`).  What stands there then decides which of them end: each
semicolon that another one follows ends one (`Resumes.of_semicolons`), a line break ends all
(`Resumes.closes`), and an `else` ends those inside the innermost branch that has none
(`Resumes.of_else`).

## Main definitions

* `OpenBody`: a body that waits to be gone on with, with what stands in front of it.
* `Resumes`: how reading goes on behind the statements of the innermost body.
* `Holds`: where the statements of the innermost body are in the tree.
* `Derives.Opens`: tokens that open bodies one right after the other.
* `GoesOn`: reading goes on in one of the bodies.

## Main statements

* `Derives.Opens.reads_iff`: opened bodies wait for what stands behind them.
* `statements_of_bodies`: any number of bodies, semicolons and line breaks, and any tokens behind
  them.
-/

namespace Edict

open Grammar Derives

/-! ## Open bodies -/

/-- A body that is open: that of an `if`, that of an `else`, with what stands behind its `then`, or
that of a loop. -/
inductive OpenBody where
  | thenBody (test : Expr)
  | elseBody (test : Expr) (before : List Stmt)
  | count (limit : Expr)
  | each (source : Source)

namespace OpenBody

/-- The statement with the body, if no `else` follows. -/
def close : OpenBody → List Stmt → Stmt
  | thenBody c, b => .branch c b none
  | elseBody c a, b => .branch c a (some b)
  | count c, b => .count c b
  | each source, b => .each source b

/-- Whether an `else` may follow the body. -/
def takesElse : OpenBody → Bool
  | thenBody _ => true
  | _ => false

/-- The statement has the body at this place. -/
def Has : OpenBody → List Stmt → Stmt → Prop
  | thenBody c, b, s => ∃ d, s = .branch c b d
  | f, b, s => s = f.close b

/-- In front of the first list the body ends, and its statement in front of the second one. -/
def Ends : OpenBody → List Stmt → List Token → Stmt → List Token → Prop
  | thenBody c, b, ts, s, rest => Branches c b ts s rest
  | f, b, ts, s, rest => s = f.close b ∧ rest = ts

/-- The statement that one statement becomes when all the bodies around it end behind it. -/
def closeAll (fs : List OpenBody) (s : Stmt) : Stmt := fs.foldl (fun s f => f.close [s]) s

end OpenBody

/-- Reading goes on at `ts` behind the statements `b` of the innermost body, and the statement with
all the bodies in it is read up to `rest`. -/
inductive Resumes : List OpenBody → List Stmt → List Token → Stmt → List Token → Prop
  | done {s : Stmt} {rest : List Token} : Resumes [] [s] rest s rest
  | close {f : OpenBody} {fs : List OpenBody} {b more : List Stmt} {ts mid after rest : List Token}
      {s st : Stmt} : Gives (readFurther ts) more mid → f.Ends (b ++ more) mid s after →
      Resumes fs [s] after st rest → Resumes (f :: fs) b ts st rest

/-- The innermost body is `b` in the statement, each other one beginning with the statement that has
the one inside it. -/
def Holds : List OpenBody → List Stmt → Stmt → Prop
  | [], b, st => b = [st]
  | f :: fs, b, st => ∃ s more, f.Has b s ∧ Holds fs (s :: more) st

/-- An assignment or a call. -/
inductive Derives.Simple : List Token → Stmt → Prop
  | assign {ps us : List Token} {t : Token} {r : Reference} {op : AssignOp} {e : Expr} :
      Place ps r → t.kind.assignOp? = some op → Boolean us e →
      Simple (ps ++ t :: us) (.assign r op e)
  | call {ts : List Token} {f : String} {args : List Expr} : Call ts (f, args) →
      Simple ts (.call f args)

/-- What stands in front of the body of an `if` or a loop, and line breaks. -/
inductive Derives.Header : List Token → OpenBody → Prop
  | thenBody {s t : Span} {cs nl : List Token} {c : Expr} : Boolean cs c → Newlines nl →
      Header (⟨.keyword .ifKw, s⟩ :: (cs ++ ⟨.keyword .thenKw, t⟩ :: nl)) (.thenBody c)
  | count {s t u : Span} {cs nl : List Token} {c : Expr} : Boolean cs c → Newlines nl →
      Header (⟨.keyword .forKw, s⟩ :: ⟨.symbol .lparen, t⟩ :: (cs ++ ⟨.symbol .rparen, u⟩ :: nl))
        (.count c)
  | eachItem {s t u v : Span} {is nl : List Token} {items : List Literal} :
      Delimited false ArrayItem is items → Newlines nl →
      Header (⟨.keyword .forKw, s⟩ :: ⟨.keyword .eachKw, t⟩ :: ⟨.symbol .lbracket, u⟩ ::
        (is ++ ⟨.symbol .rbracket, v⟩ :: nl)) (.each (.literals items))
  | eachOf {s t : Span} {ps nl : List Token} {r : Reference} : Place ps r → Newlines nl →
      Header (⟨.keyword .forKw, s⟩ :: ⟨.keyword .eachKw, t⟩ :: (ps ++ nl)) (.each (.reference r))

/-- The tokens open bodies one right after the other.  An `else` ends the bodies up to the innermost
one of an `if`, behind a simple statement, and opens another one. -/
inductive Derives.Opens : List Token → List OpenBody → Prop
  | nil : Opens [] []
  | header {us hs : List Token} {fs : List OpenBody} {f : OpenBody} : Opens us fs → Header hs f →
      Opens (us ++ hs) (f :: fs)
  | elseBody {us ss nl nl' : List Token} {t : Span} {inner outer : List OpenBody} {c : Expr}
      {s : Stmt} :
      Opens us (inner ++ .thenBody c :: outer) → (∀ f ∈ inner, f.takesElse = false) → Simple ss s →
      Newlines nl → Newlines nl' →
      Opens (us ++ (ss ++ (nl ++ ⟨.keyword .elseKw, t⟩ :: nl')))
        (.elseBody c [OpenBody.closeAll inner s] :: outer)

/-! ## Where line breaks, semicolons and `else` stand -/

namespace Derives

/-- Line breaks are tokens of that kind. -/
theorem Newlines.eq_nil_or_cons {nl : List Token} (h : Newlines nl) :
    nl = [] ∨ ∃ u more, nl = ⟨.newline, u⟩ :: more ∧ Newlines more := by
  rcases nl with _ | ⟨⟨k, u⟩, more⟩
  · exact .inl rfl
  · obtain ⟨hk, hmore⟩ := List.forall_mem_cons.mp h
    obtain rfl : k = .newline := by
      cases k with
      | newline => rfl
      | _ => cases hk
    exact .inr ⟨u, more, rfl, hmore⟩

/-- No semicolon, no statement and no operator stands in front of line breaks and an `else`. -/
theorem Newlines.peek_else {nl : List Token} (h : Newlines nl) (t : Span) (ts : List Token) :
    (Token.peek (nl ++ ⟨.keyword .elseKw, t⟩ :: ts)).kind ≠ .symbol .semicolon ∧
      startsStatement (nl ++ ⟨.keyword .elseKw, t⟩ :: ts) = false ∧
      EndsAt 1 (nl ++ ⟨.keyword .elseKw, t⟩ :: ts) := by
  obtain rfl | ⟨u, more, rfl, -⟩ := h.eq_nil_or_cons
  · exact ⟨nofun, rfl, Nat.zero_lt_one⟩
  · exact ⟨nofun, rfl, Nat.zero_lt_one⟩

end Derives

/-- Semicolons, and nothing else. -/
def Semicolons (ts : List Token) : Prop := ∀ t ∈ ts, t.kind = .symbol .semicolon

namespace Semicolons

variable {semis : List Token}

/-- Semicolons are there or not. -/
theorem eq_nil_or_cons (h : Semicolons semis) :
    semis = [] ∨ ∃ u more, semis = ⟨.symbol .semicolon, u⟩ :: more ∧ Semicolons more := by
  rcases semis with _ | ⟨⟨k, u⟩, more⟩
  · exact .inl rfl
  · obtain ⟨hk, hmore⟩ := List.forall_mem_cons.mp h
    obtain rfl : k = .symbol .semicolon := hk
    exact .inr ⟨u, more, rfl, hmore⟩

/-- Semicolons separate statements. -/
theorem separators (h : Semicolons semis) : Separators semis := by
  intro t ht
  rw [h t ht]
  rfl

/-- No expression goes on behind a semicolon. -/
theorem endsAt (h : Semicolons semis) {ts : List Token} (hts : semis = [] → EndsAt 1 ts) :
    EndsAt 1 (semis ++ ts) := by
  obtain rfl | ⟨u, more, rfl, -⟩ := h.eq_nil_or_cons
  · exact hts rfl
  · exact Nat.zero_lt_one

/-- A semicolon has as many others in front of it as its place says. -/
theorem exists_split (h : Semicolons semis) {n : Nat} (hn : n < semis.length) :
    ∃ init t after, semis = init ++ ⟨.symbol .semicolon, t⟩ :: after ∧ Semicolons init ∧
      Semicolons after ∧ init.length = n := by
  obtain ⟨⟨k, t⟩, after, hdrop⟩ := List.exists_cons_of_length_pos
    (show 0 < (semis.drop n).length by rw [List.length_drop]; exact Nat.sub_pos_of_lt hn)
  obtain rfl : k = .symbol .semicolon :=
    h _ (List.mem_of_mem_drop (hdrop ▸ List.mem_cons_self))
  refine ⟨semis.take n, t, after, ?_, fun u hu => h u (List.mem_of_mem_take hu), fun u hu => ?_, ?_⟩
  · rw [← hdrop, List.take_append_drop]
  · exact h u (List.mem_of_mem_drop (hdrop ▸ List.mem_cons_of_mem _ hu))
  · exact List.length_take_of_le (Nat.le_of_lt hn)

/-- The last semicolon has all the others in front of it. -/
theorem exists_concat (h : Semicolons semis) (hne : semis ≠ []) :
    ∃ init t, semis = init ++ [⟨.symbol .semicolon, t⟩] ∧ Semicolons init ∧
      init.length = semis.length - 1 := by
  have hpos : 0 < semis.length := List.length_pos_iff.mpr hne
  obtain ⟨init, t, after, hsemis, hinit, -, hlength⟩ := h.exists_split (Nat.sub_one_lt_of_lt hpos)
  have hafter : after = [] := by
    have hcount := congrArg List.length hsemis
    rw [List.length_append, List.length_cons] at hcount
    exact List.eq_nil_of_length_eq_zero (by omega)
  exact ⟨init, t, by rw [hsemis, hafter], hinit, hlength⟩

end Semicolons

section bodies

variable {f : OpenBody} {fs inner outer : List OpenBody} {b more : List Stmt} {s st : Stmt}
  {ts us ss rest after semis nl : List Token} {t : Span}

/-! ## Where bodies end -/

namespace OpenBody

/-- A body that no `else` can follow ends with its statement. -/
theorem ends_of_not_takesElse (hf : f.takesElse = false) :
    f.Ends b ts s rest ↔ s = f.close b ∧ rest = ts := by
  cases f with
  | thenBody c => cases hf
  | elseBody | count | each => exact Iff.rfl

/-- So does every body that no `else` follows. -/
theorem ends_of_no_else (hts : (Token.peek (Token.skipNewlines ts)).kind ≠ .keyword .elseKw) :
    f.Ends b ts s rest ↔ s = f.close b ∧ rest = ts := by
  cases f with
  | thenBody c =>
      refine ⟨?_, fun ⟨hs, hrest⟩ => .inr ⟨hts, hs, hrest⟩⟩
      rintro (⟨t, us, d, helse, -, -⟩ | ⟨-, hs, hrest⟩)
      · rw [helse] at hts
        exact absurd rfl hts
      · exact ⟨hs, hrest⟩
  | elseBody | count | each => exact Iff.rfl

/-- A body that ends is in its statement. -/
theorem Ends.has (h : f.Ends b ts s rest) : f.Has b s := by
  cases f with
  | thenBody c =>
      obtain ⟨-, -, d, -, -, rfl⟩ | ⟨-, rfl, -⟩ := h
      · exact ⟨some d, rfl⟩
      · exact ⟨none, rfl⟩
  | elseBody | count | each => exact h.1

end OpenBody

namespace Resumes

/-- The statements of the innermost body so far are the first ones of that body in the tree. -/
theorem holds (h : Resumes fs b ts st rest) : ∃ more, Holds fs (b ++ more) st := by
  induction h with
  | done => exact ⟨[], rfl⟩
  | close _ hends _ ih =>
      obtain ⟨more, hmore⟩ := ih
      exact ⟨_, _, more, hends.has, hmore⟩

/-- With no body open, the statement has been read. -/
theorem nil_iff : Resumes [] b ts st rest ↔ b = [st] ∧ rest = ts := by
  constructor
  · rintro ⟨⟩
    exact ⟨rfl, rfl⟩
  · rintro ⟨rfl, rfl⟩
    exact .done

/-- Otherwise the innermost body goes on as far as it does, and its statement is one of the next
body. -/
theorem cons_iff : Resumes (f :: fs) b ts st rest ↔
    ∃ more mid s after, Gives (readFurther ts) more mid ∧ f.Ends (b ++ more) mid s after ∧
      Resumes fs [s] after st rest := by
  constructor
  · rintro (_ | ⟨hmore, hends, hrest⟩)
    exact ⟨_, _, _, _, hmore, hends, hrest⟩
  · rintro ⟨more, mid, s, after, hmore, hends, hrest⟩
    exact .close hmore hends hrest

/-- A body that nothing goes on with, and no `else`, ends. -/
theorem cons_iff_of_close (hmore : ∀ more mid, Gives (readFurther ts) more mid ↔ more = [] ∧ mid = us)
    (hends : ∀ s after, f.Ends b us s after ↔ s = f.close b ∧ after = us) :
    Resumes (f :: fs) b ts st rest ↔ Resumes fs [f.close b] us st rest := by
  rw [cons_iff]
  constructor
  · rintro ⟨more, mid, s, after, hfurther, hend, hrest⟩
    obtain ⟨rfl, rfl⟩ := (hmore _ _).mp hfurther
    rw [List.append_nil] at hend
    obtain ⟨rfl, rfl⟩ := (hends _ _).mp hend
    exact hrest
  · intro hrest
    refine ⟨[], us, f.close b, us, (hmore _ _).mpr ⟨rfl, rfl⟩, ?_, hrest⟩
    rw [List.append_nil]
    exact (hends _ _).mpr ⟨rfl, rfl⟩

/-- Where no semicolon stands, and no `else` or nothing that takes one, all bodies end. -/
theorem of_no_semicolon (hts : (Token.peek ts).kind ≠ .symbol .semicolon)
    (hends : ∀ f ∈ fs, f.takesElse = false ∨
      (Token.peek (Token.skipNewlines ts)).kind ≠ .keyword .elseKw) :
    Resumes (fs ++ outer) [s] ts st rest ↔ Resumes outer [OpenBody.closeAll fs s] ts st rest := by
  induction fs generalizing s with
  | nil => exact Iff.rfl
  | cons f fs ih =>
      obtain ⟨hf, hfs⟩ := List.forall_mem_cons.mp hends
      rw [List.cons_append, cons_iff_of_close fun _ _ => readFurther_of_other hts]
      · exact ih hfs
      · intro s after
        exact hf.elim OpenBody.ends_of_not_takesElse OpenBody.ends_of_no_else

/-- What is left is that. -/
theorem closes (hts : (Token.peek ts).kind ≠ .symbol .semicolon)
    (hends : ∀ f ∈ fs, f.takesElse = false ∨
      (Token.peek (Token.skipNewlines ts)).kind ≠ .keyword .elseKw) :
    Resumes fs [s] ts (OpenBody.closeAll fs s) ts := by
  rw [← List.append_nil fs, of_no_semicolon hts hends, List.append_nil]
  exact .done

/-- Each semicolon in front of another one ends one body. -/
theorem of_semicolons (hsemis : Semicolons semis)
    (hlength : semis.length = inner.length) :
    Resumes (inner ++ outer) [s] (semis ++ ⟨.symbol .semicolon, t⟩ :: ts) st rest ↔
      Resumes outer [OpenBody.closeAll inner s] (⟨.symbol .semicolon, t⟩ :: ts) st rest := by
  induction inner generalizing semis s with
  | nil =>
      obtain rfl := List.length_eq_zero_iff.mp hlength
      exact Iff.rfl
  | cons f inner ih =>
      obtain rfl | ⟨u, semis, rfl, hmore⟩ := hsemis.eq_nil_or_cons
      · cases hlength
      -- what follows the first semicolon begins with one, too
      obtain ⟨v, vs, hfront⟩ : ∃ v vs, semis ++ ⟨.symbol .semicolon, t⟩ :: ts =
          ⟨.symbol .semicolon, v⟩ :: vs := by
        obtain rfl | ⟨v, vs, rfl, -⟩ := hmore.eq_nil_or_cons
        · exact ⟨t, ts, rfl⟩
        · exact ⟨v, _, rfl⟩
      have hclosed := ih (s := f.close [s]) hmore (Nat.succ.inj hlength)
      rw [hfront] at hclosed
      rw [List.cons_append, List.cons_append, hfront,
        cons_iff_of_close fun _ _ => readFurther_of_semicolon rfl]
      · exact hclosed
      · intro s after
        exact OpenBody.ends_of_no_else (by rw [skipNewlines_cons rfl, peek_cons]; simp)

/-- A semicolon that neither a statement nor a semicolon follows belongs to the innermost body and
changes nothing. -/
theorem of_semicolon (hfs : fs ≠ []) (hstart : startsStatement ts = false)
    (hts : (Token.peek ts).kind ≠ .symbol .semicolon) :
    Resumes fs b (⟨.symbol .semicolon, t⟩ :: ts) st rest ↔ Resumes fs b ts st rest := by
  obtain ⟨f, fs, rfl⟩ := List.exists_cons_of_ne_nil hfs
  rw [cons_iff, cons_iff]
  simp only [readFurther_of_semicolon hstart, readFurther_of_other hts]

/-- A statement right behind a semicolon belongs to the innermost body. -/
theorem of_start (hstart : startsStatement ts = true) :
    Resumes (f :: fs) b (⟨.symbol .semicolon, t⟩ :: ts) st rest ↔
      ∃ s mid, Gives (readStatement ts) s mid ∧ Resumes (f :: fs) (b ++ [s]) mid st rest := by
  simp only [cons_iff, readFurther_of_start hstart]
  constructor
  · rintro ⟨_, mid, s, after, ⟨first, behind, more, hfirst, hmore, rfl⟩, hends, hrest⟩
    refine ⟨first, behind, hfirst, more, mid, s, after, hmore, ?_, hrest⟩
    rwa [List.append_assoc]
  · rintro ⟨first, behind, hfirst, more, mid, s, after, hmore, hends, hrest⟩
    refine ⟨first :: more, mid, s, after, ⟨first, behind, more, hfirst, hmore, rfl⟩, ?_, hrest⟩
    rwa [List.append_assoc] at hends

/-- In front of an `else`, all semicolons but the last one end a body each. -/
theorem of_semicolons_else {closed left : List OpenBody} (hsemis : Semicolons semis)
    (hnl : Newlines nl) (hlength : closed.length = semis.length - 1)
    (hleft : semis ≠ [] → left ≠ []) :
    Resumes (closed ++ left) [s] (semis ++ (nl ++ ⟨.keyword .elseKw, t⟩ :: ts)) st rest ↔
      Resumes left [OpenBody.closeAll closed s] (nl ++ ⟨.keyword .elseKw, t⟩ :: ts) st rest := by
  by_cases hne : semis = []
  · subst hne
    obtain rfl := List.length_eq_zero_iff.mp hlength
    exact Iff.rfl
  · obtain ⟨init, u, rfl, hinit, hcount⟩ := hsemis.exists_concat hne
    obtain ⟨hpeek, hstart, -⟩ := hnl.peek_else t ts
    rw [List.append_assoc, List.singleton_append, of_semicolons hinit (hcount.trans hlength.symm),
      of_semicolon (hleft hne) hstart hpeek]

/-- An `else` belongs to the innermost `if` that has none, and what follows it is a body of that. -/
theorem of_else {c : Expr} (hinner : ∀ f ∈ inner, f.takesElse = false) (hnl : Newlines nl) :
    Resumes (inner ++ .thenBody c :: outer) [s] (nl ++ ⟨.keyword .elseKw, t⟩ :: ts) st rest ↔
      ∃ s' mid, Gives (readStatement (Token.skipNewlines ts)) s' mid ∧
        Resumes (.elseBody c [OpenBody.closeAll inner s] :: outer) [s'] mid st rest := by
  have hpeek := (hnl.peek_else t ts).1
  have hskip : Token.skipNewlines (nl ++ ⟨.keyword .elseKw, t⟩ :: ts) =
      ⟨.keyword .elseKw, t⟩ :: ts := by
    rw [skipNewlines_append hnl, skipNewlines_cons rfl]
  rw [of_no_semicolon hpeek fun f hf => .inl (hinner f hf), cons_iff]
  simp only [readFurther_of_other hpeek, cons_iff]
  constructor
  · rintro ⟨_, _, s₁, after, ⟨rfl, rfl⟩, ⟨v, us, d, helse, hd, rfl⟩ | ⟨hno, -⟩, hrest⟩
    · rw [hskip] at helse
      cases helse
      obtain ⟨s', mid, more, hs', hmore, rfl⟩ := readBody_iff.mp hd
      exact ⟨s', mid, hs', more, after, _, after, hmore, ⟨rfl, rfl⟩, hrest⟩
    · rw [hskip] at hno
      exact absurd rfl hno
  · rintro ⟨s', mid, hs', more, after, _, _, hmore, ⟨rfl, rfl⟩, hrest⟩
    have hd := readBody_iff.mpr ⟨s', mid, more, hs', hmore, rfl⟩
    exact ⟨[], _, _, _, ⟨rfl, rfl⟩, .inl ⟨t, ts, _, hskip, hd, rfl⟩, hrest⟩

end Resumes

/-! ## Bodies that are opened -/

namespace Derives

variable {hs : List Token}

/-- A simple statement begins as statements do. -/
theorem Simple.starts (h : Simple ss s) (ts : List Token) : startsStatement (ss ++ ts) = true := by
  obtain ⟨-, -, -, hstarts⟩ : ∃ t vs, ss = t :: vs ∧ startsStatement (ss ++ ts) = true := by
    cases h with
    | assign hr hop he => exact (Statement.assign hr hop he).head ts
    | call hc => exact (Statement.call hc).head ts
  exact hstarts

/-- A simple statement is read up to what goes on with no expression. -/
theorem Simple.reads (h : Simple ss s) (hts : EndsAt 1 ts) :
    Gives (readStatement (ss ++ ts)) s ts := by
  cases h with
  | assign hr hop he =>
      rw [List.append_assoc, List.cons_append, readStatement]
      exact statement_assign hr hop he hts _
  | call hc =>
      have hgives := call_complete hc ts
      rw [readStatement]
      cases hc with
      | mk hargs => exact hgives.bind fun _ => gives_of_eq_ok rfl

/-- What has a body begins as statements do. -/
theorem Header.starts (h : Header hs f) (ts : List Token) : startsStatement (hs ++ ts) = true := by
  cases h <;> rfl

/-- Behind a header a body is read, up to where it ends. -/
theorem Header.reads_iff (h : Header hs f) (hts : startsStatement ts = true) :
    Gives (readStatement (hs ++ ts)) s rest ↔
      ∃ b mid, Gives (readBody ts) b mid ∧ f.Ends b mid s rest := by
  cases h with
  | @thenBody _ u cs nl c hc hnl =>
      rw [List.cons_append, List.append_assoc, List.cons_append, readStatement_if_iff]
      have htest : Gives (readCondition (cs ++ ⟨.keyword .thenKw, u⟩ :: (nl ++ ts))) c _ :=
        readCondition_complete hc Nat.zero_lt_one
      constructor
      · rintro ⟨c', u', mid, b, after, hc', hb, hends⟩
        obtain ⟨rfl, heq⟩ := htest.unique hc'
        cases heq
        exact ⟨b, after, (readBody_newlines hnl).mp hb, hends⟩
      · rintro ⟨b, after, hb, hends⟩
        exact ⟨c, _, _, b, after, htest, (readBody_newlines hnl).mpr hb, hends⟩
  | @count _ _ u cs nl c hc hnl =>
      rw [List.cons_append, List.cons_append, List.append_assoc, List.cons_append,
        readStatement_count_iff]
      have hbound : Gives (readExpression (cs ++ ⟨.symbol .rparen, u⟩ :: (nl ++ ts))) c _ :=
        readExpression_complete hc Nat.zero_lt_one
      constructor
      · rintro ⟨c', v, mid, b, hc', hb, rfl⟩
        obtain ⟨rfl, heq⟩ := hbound.unique hc'
        cases heq
        exact ⟨b, rest, (readBody_newlines hnl).mp hb, rfl, rfl⟩
      · rintro ⟨b, after, hb, rfl, rfl⟩
        exact ⟨c, _, _, b, hbound, (readBody_newlines hnl).mpr hb, rfl⟩
  | @eachItem _ _ u v is nl items hitems hnl =>
      rw [List.cons_append, List.cons_append, List.cons_append, List.append_assoc, List.cons_append,
        readStatement_eachItem_iff]
      have harray := arrayLiteral_complete hitems u v (nl ++ ts)
      constructor
      · rintro ⟨items', mid, b, hitems', hb, rfl⟩
        obtain ⟨rfl, rfl⟩ := harray.unique hitems'
        exact ⟨b, rest, (readBody_newlines hnl).mp hb, rfl, rfl⟩
      · rintro ⟨b, after, hb, rfl, rfl⟩
        exact ⟨items, _, b, harray, (readBody_newlines hnl).mpr hb, rfl⟩
  | @eachOf _ _ ps nl r hr hnl =>
      have hend : EndsAt 4 (nl ++ ts) :=
        hnl.endsAt (Nat.zero_lt_succ 3) (endsAt_of_startsStatement hts)
      have hplace := reference_complete hr hend
      obtain ⟨_, _, _, _, rfl, rfl, -⟩ := hr.exists_path
      rw [List.cons_append, List.cons_append, List.append_assoc, List.cons_append,
        readStatement_eachOf_iff]
      constructor
      · rintro ⟨r', mid, b, hr', hb, rfl⟩
        obtain ⟨rfl, rfl⟩ := hplace.unique hr'
        exact ⟨b, rest, (readBody_newlines hnl).mp hb, rfl, rfl⟩
      · rintro ⟨b, after, hb, rfl, rfl⟩
        exact ⟨_, _, b, hplace, (readBody_newlines hnl).mpr hb, rfl⟩

/-- Behind bodies that were opened, a statement is read, and reading goes on in the innermost
body. -/
theorem Opens.reads_iff (h : Opens us fs) (hts : startsStatement ts = true) :
    Gives (readStatement (us ++ ts)) st rest ↔
      ∃ s mid, Gives (readStatement ts) s mid ∧ Resumes fs [s] mid st rest := by
  induction h generalizing ts with
  | nil =>
      simp only [Resumes.nil_iff]
      constructor
      · intro hst
        exact ⟨st, rest, hst, rfl, rfl⟩
      · rintro ⟨s, mid, hs, heq, rfl⟩
        cases heq
        exact hs
  | header _ hheader ih =>
      rw [List.append_assoc, ih (hheader.starts ts)]
      simp only [hheader.reads_iff hts, readBody_of_start hts]
      constructor
      · rintro ⟨s, mid, ⟨_, behind, ⟨first, after, more, hfirst, hmore, rfl⟩, hends⟩, hrest⟩
        exact ⟨first, after, hfirst, .close hmore hends hrest⟩
      · rintro ⟨first, after, hfirst, hrest⟩
        obtain ⟨more, mid, s, behind, hmore, hends, hrest⟩ := Resumes.cons_iff.mp hrest
        exact ⟨s, behind, ⟨_, mid, ⟨first, after, more, hfirst, hmore, rfl⟩, hends⟩, hrest⟩
  | @elseBody us ss nl nl' t inner outer c s _ hinner hs hnl hnl' ih =>
      rw [List.append_assoc, List.append_assoc, ih (hs.starts _), List.append_assoc, List.cons_append]
      have hread : Gives (readStatement (ss ++ (nl ++ ⟨.keyword .elseKw, t⟩ :: (nl' ++ ts)))) s _ :=
        hs.reads (hnl.endsAt Nat.zero_lt_one Nat.zero_lt_one)
      have helse := @Resumes.of_else inner outer s st (nl' ++ ts) rest nl t c hinner hnl
      rw [skipNewlines_append hnl', (skip_of_startsStatement hts).1] at helse
      rw [← helse]
      constructor
      · rintro ⟨s', mid, hs', hrest⟩
        obtain ⟨rfl, rfl⟩ := hread.unique hs'
        exact hrest
      · intro hrest
        exact ⟨s, _, hread, hrest⟩

/-- The same when it is a simple statement that is read. -/
theorem Opens.simple_iff (h : Opens us fs) (hs : Simple ss s) (hts : EndsAt 1 ts) :
    Gives (readStatement (us ++ (ss ++ ts))) st rest ↔ Resumes fs [s] ts st rest := by
  rw [h.reads_iff (hs.starts ts)]
  constructor
  · rintro ⟨s', mid, hs', hrest⟩
    obtain ⟨rfl, rfl⟩ := (hs.reads hts).unique hs'
    exact hrest
  · intro hrest
    exact ⟨s, ts, hs.reads hts, hrest⟩

/-- Opened bodies and a simple statement begin as statements do. -/
theorem Opens.starts (h : Opens us fs) (hts : startsStatement ts = true) :
    startsStatement (us ++ ts) = true := by
  induction h generalizing ts with
  | nil => exact hts
  | header _ hheader ih =>
      rw [List.append_assoc]
      exact ih (hheader.starts ts)
  | elseBody _ _ hs _ _ ih =>
      rw [List.append_assoc, List.append_assoc]
      exact ih (hs.starts _)

end Derives

/-! ## Programs -/

section programs

/-- A statement that is read is the first one of the program, if it may end there. -/
theorem readProgram_eq (hstart : startsStatement ts = true) (hs : Gives (readStatement ts) s rest) :
    readProgram ts = do
      statementEnd rest
      let more ← readProgram rest
      return s :: more := by
  obtain ⟨t, us, rfl⟩ : ∃ t us, ts = t :: us := by
    rcases ts with _ | ⟨t, us⟩
    · cases hstart
    · exact ⟨t, us, rfl⟩
  have ht : t.kind ≠ .eof := by
    intro hk
    have := endsStatement_of_startsStatement hstart
    rw [peek_cons, hk] at this
    cases this
  obtain ⟨_, hs⟩ := hs
  rw [readProgram_of_statement (skip_of_startsStatement hstart).2 ht, hs]
  rfl

/-- The same when it does end there. -/
theorem readProgram_of_reads (hstart : startsStatement ts = true)
    (hs : Gives (readStatement ts) s rest) (hend : (Token.peek rest).kind.endsStatement = true) :
    readProgram ts = (s :: ·) <$> readProgram rest := by
  rw [readProgram_eq hstart hs, statementEnd_of_endsStatement hend]
  rfl

/-- A program does not begin with `else`. -/
theorem readProgram_else (t : Span) (ts : List Token) {seps : List Token} (hseps : Separators seps) :
    ∃ e, readProgram (seps ++ ⟨.keyword .elseKw, t⟩ :: ts) = .error e := by
  have hskip : Token.skipSeparators (seps ++ ⟨.keyword .elseKw, t⟩ :: ts) =
      ⟨.keyword .elseKw, t⟩ :: ts := by
    rw [skipSeparators_append hseps, skipSeparators_cons rfl]
  rw [readProgram_of_statement hskip nofun, readStatement, Seam.statement_eq_error rfl]
  exact ⟨_, rfl⟩

/-- An `else` behind a statement and separators is a mistake. -/
theorem readProgram_of_else {seps : List Token} (hstart : startsStatement ts = true)
    (hs : Gives (readStatement ts) s (seps ++ ⟨.keyword .elseKw, t⟩ :: after))
    (hseps : Separators seps) : ∃ e, readProgram ts = .error e := by
  obtain ⟨e, he⟩ := readProgram_else t after hseps
  rw [readProgram_eq hstart hs]
  rcases hend : statementEnd (seps ++ ⟨.keyword .elseKw, t⟩ :: after) with e' | ⟨⟩
  · exact ⟨e', rfl⟩
  · rw [he]
    exact ⟨e, rfl⟩

end programs

/-! ## Where a statement goes -/

/-- The statement that is read from `us` on goes on at `ts` with a statement of the innermost of the
bodies `fs`, in which the statements `b` stand before it. -/
def GoesOn (us ts : List Token) (fs : List OpenBody) (b : List Stmt) : Prop :=
  ∀ st rest, Gives (readStatement us) st rest ↔
    ∃ s mid, Gives (readStatement ts) s mid ∧ Resumes fs (b ++ [s]) mid st rest

/-- What goes on in a body stands there in the tree, behind what the body had before. -/
theorem GoesOn.holds (h : GoesOn us ts fs b) (hst : Gives (readStatement us) st rest) :
    ∃ s mid more, Gives (readStatement ts) s mid ∧ Holds fs (b ++ s :: more) st := by
  obtain ⟨s, mid, hs, hrest⟩ := (h st rest).mp hst
  obtain ⟨more, hmore⟩ := hrest.holds
  exact ⟨s, mid, more, hs, by rwa [List.append_cons]⟩

section opened

variable (hopen : Opens us fs) (hs : Simple ss s)
include hopen hs

/-- Behind semicolons, all but the last of which end a body, a statement belongs to the body that is
then the innermost one. -/
theorem goesOn_of_semicolons (hsemis : Semicolons semis) (hne : semis ≠ [])
    (hstart : startsStatement ts = true) (hfs : fs = inner ++ f :: outer)
    (hlength : inner.length = semis.length - 1) :
    GoesOn (us ++ (ss ++ (semis ++ ts))) ts (f :: outer) [OpenBody.closeAll inner s] := by
  subst hfs
  intro st rest
  rw [hopen.simple_iff hs (hsemis.endsAt fun h => absurd h hne)]
  obtain ⟨init, t, rfl, hinit, hcount⟩ := hsemis.exists_concat hne
  rw [List.append_assoc, List.singleton_append,
    Resumes.of_semicolons hinit (hcount.trans hlength.symm), Resumes.of_start hstart]

/-- Behind more semicolons than there are bodies, a statement belongs to the program. -/
theorem readProgram_of_semicolons (hsemis : Semicolons semis) (hlength : fs.length < semis.length) :
    readProgram (us ++ (ss ++ (semis ++ ts))) = (OpenBody.closeAll fs s :: ·) <$> readProgram ts := by
  have hne : semis ≠ [] := List.ne_nil_of_length_pos (Nat.zero_lt_of_lt hlength)
  have hend : EndsAt 1 (semis ++ ts) := hsemis.endsAt fun h => absurd h hne
  obtain ⟨init, t, more, rfl, hinit, hmore, hcount⟩ := hsemis.exists_split hlength
  have hread : Gives (readStatement (us ++ (ss ++ (init ++ ⟨.symbol .semicolon, t⟩ :: more ++ ts))))
      (OpenBody.closeAll fs s) (⟨.symbol .semicolon, t⟩ :: (more ++ ts)) := by
    rw [hopen.simple_iff hs hend, List.append_assoc, List.cons_append, ← List.append_nil fs,
      Resumes.of_semicolons hinit hcount, List.append_nil]
    exact .done
  have hskip : Token.skipSeparators (⟨.symbol .semicolon, t⟩ :: more ++ ts) =
      Token.skipSeparators ts :=
    skipSeparators_append (List.forall_mem_cons.mpr ⟨rfl, hmore.separators⟩) ts
  rw [readProgram_of_reads (hopen.starts (hs.starts _)) hread rfl, ← List.cons_append,
    readProgram_congr hskip]

/-- Line breaks that no `else` follows end all bodies. -/
theorem readProgram_of_newlines (hnl : Newlines nl) (hne : nl ≠ [])
    (helse : (Token.peek (Token.skipNewlines ts)).kind ≠ .keyword .elseKw) :
    readProgram (us ++ (ss ++ (nl ++ ts))) = (OpenBody.closeAll fs s :: ·) <$> readProgram ts := by
  have hskip : (Token.peek (Token.skipNewlines (nl ++ ts))).kind ≠ .keyword .elseKw := by
    rwa [skipNewlines_append hnl]
  have hseps := readProgram_congr (skipSeparators_append hnl.separators ts)
  obtain ⟨u, more, rfl, -⟩ := hnl.eq_nil_or_cons.resolve_left hne
  have hread : Gives (readStatement (us ++ (ss ++ (⟨.newline, u⟩ :: more ++ ts))))
      (OpenBody.closeAll fs s) (⟨.newline, u⟩ :: more ++ ts) := by
    have hend : EndsAt 1 (⟨.newline, u⟩ :: more ++ ts) := Nat.zero_lt_one
    rw [hopen.simple_iff hs hend]
    exact .closes (by simp) fun _ _ => .inr hskip
  rw [readProgram_of_reads (hopen.starts (hs.starts _)) hread rfl, hseps]

/-- When the bodies have ended that all but the last of the semicolons end, an `else` goes on with
the innermost `if` that has none. -/
theorem goesOn_of_else {closed : List OpenBody} {c : Expr} (hsemis : Semicolons semis)
    (hnl : Newlines nl) (hfs : fs = closed ++ (inner ++ .thenBody c :: outer))
    (hlength : closed.length = semis.length - 1) (hinner : ∀ f ∈ inner, f.takesElse = false) :
    GoesOn (us ++ (ss ++ (semis ++ (nl ++ ⟨.keyword .elseKw, t⟩ :: ts)))) (Token.skipNewlines ts)
      (.elseBody c [OpenBody.closeAll (closed ++ inner) s] :: outer) [] := by
  subst hfs
  intro st rest
  have hclose : OpenBody.closeAll (closed ++ inner) s =
      OpenBody.closeAll inner (OpenBody.closeAll closed s) := List.foldl_append
  rw [hopen.simple_iff hs (hsemis.endsAt fun _ => (hnl.peek_else t ts).2.2),
    Resumes.of_semicolons_else hsemis hnl hlength fun _ => by simp, hclose]
  exact Resumes.of_else hinner hnl

/-- When there is no such `if`, the `else` is a mistake. -/
theorem readProgram_of_no_if (hsemis : Semicolons semis) (hnl : Newlines nl)
    (hno : ∀ f ∈ fs.drop (semis.length - 1), f.takesElse = false) :
    ∃ e, readProgram (us ++ (ss ++ (semis ++ (nl ++ ⟨.keyword .elseKw, t⟩ :: ts)))) = .error e := by
  by_cases hlength : fs.length < semis.length
  · -- then the `else` stands behind a statement of the program
    obtain ⟨e, he⟩ := readProgram_else t ts hnl.separators
    rw [readProgram_of_semicolons hopen hs hsemis hlength, he]
    exact ⟨e, rfl⟩
  · obtain ⟨closed, left, hfs, hcount, hdrop⟩ : ∃ closed left, fs = closed ++ left ∧
        closed.length = semis.length - 1 ∧ fs.drop (semis.length - 1) = left :=
      ⟨fs.take _, fs.drop _, (List.take_append_drop _ _).symm, List.length_take_of_le (by omega), rfl⟩
    rw [hdrop] at hno
    subst hfs
    have hleft : semis ≠ [] → left ≠ [] := by
      rintro hne rfl
      have hpos := List.length_pos_iff.mpr hne
      rw [List.append_nil] at hlength
      omega
    have hclose : OpenBody.closeAll (closed ++ left) s =
        OpenBody.closeAll left (OpenBody.closeAll closed s) := List.foldl_append
    have hread : Gives (readStatement
        (us ++ (ss ++ (semis ++ (nl ++ ⟨.keyword .elseKw, t⟩ :: ts)))))
        (OpenBody.closeAll (closed ++ left) s) (nl ++ ⟨.keyword .elseKw, t⟩ :: ts) := by
      rw [hopen.simple_iff hs (hsemis.endsAt fun _ => (hnl.peek_else t ts).2.2),
        Resumes.of_semicolons_else hsemis hnl hcount hleft, hclose]
      exact .closes (hnl.peek_else t ts).1 fun f hf => .inl (hno f hf)
    exact readProgram_of_else (hopen.starts (hs.starts _)) hread hnl.separators

end opened

/-- Which body a statement belongs to, for bodies `fs` that are opened without separators and end in
a simple statement `s`.

* Behind `k ≥ 1` semicolons, a statement that follows directly belongs to the body `k - 1` levels
  out from the innermost one, and to the program if there are no more than `k - 1` bodies.
* Line breaks that no `else` follows end all of the bodies.
* An `else`, behind `k ≥ 0` semicolons and any number of line breaks, belongs to the innermost `if`
  without an `else` among the bodies left open when `k - 1` of them have ended, and is a mistake if
  there is none.

What goes on in a body stands there in the tree, behind what the body had before. -/
theorem statements_of_bodies (hopen : Opens us fs) (hs : Simple ss s) :
    (∀ semis ts, Semicolons semis → semis ≠ [] → startsStatement ts = true →
      (∀ inner f outer, fs = inner ++ f :: outer → inner.length = semis.length - 1 →
        GoesOn (us ++ (ss ++ (semis ++ ts))) ts (f :: outer) [OpenBody.closeAll inner s]) ∧
      (fs.length ≤ semis.length - 1 → readProgram (us ++ (ss ++ (semis ++ ts))) =
        (OpenBody.closeAll fs s :: ·) <$> readProgram ts)) ∧
    (∀ nl ts, Newlines nl → nl ≠ [] →
      (Token.peek (Token.skipNewlines ts)).kind ≠ .keyword .elseKw →
        readProgram (us ++ (ss ++ (nl ++ ts))) = (OpenBody.closeAll fs s :: ·) <$> readProgram ts) ∧
    (∀ semis nl t ts, Semicolons semis → Newlines nl →
      (∀ closed inner c outer, fs = closed ++ (inner ++ .thenBody c :: outer) →
        closed.length = semis.length - 1 → (∀ f ∈ inner, f.takesElse = false) →
          GoesOn (us ++ (ss ++ (semis ++ (nl ++ ⟨.keyword .elseKw, t⟩ :: ts))))
            (Token.skipNewlines ts)
            (.elseBody c [OpenBody.closeAll (closed ++ inner) s] :: outer) []) ∧
      ((∀ f ∈ fs.drop (semis.length - 1), f.takesElse = false) →
        ∃ e, readProgram (us ++ (ss ++ (semis ++ (nl ++ ⟨.keyword .elseKw, t⟩ :: ts)))) =
          .error e)) ∧
    ∀ vs ts gs b st rest, GoesOn vs ts gs b → Gives (readStatement vs) st rest →
      ∃ s mid more, Gives (readStatement ts) s mid ∧ Holds gs (b ++ s :: more) st := by
  refine ⟨fun semis ts hsemis hne hstart => ⟨?_, fun hlength => ?_⟩, ?_,
    fun semis nl t ts hsemis hnl => ⟨?_, fun hno => ?_⟩, ?_⟩
  · intro inner f outer hfs hlength
    exact goesOn_of_semicolons hopen hs hsemis hne hstart hfs hlength
  · have hpos := List.length_pos_iff.mpr hne
    exact readProgram_of_semicolons hopen hs hsemis (by omega)
  · intro nl ts hnl hne helse
    exact readProgram_of_newlines hopen hs hnl hne helse
  · intro closed inner c outer hfs hlength hinner
    exact goesOn_of_else hopen hs hsemis hnl hfs hlength hinner
  · exact readProgram_of_no_if hopen hs hsemis hnl hno
  · intro vs ts gs b st rest hgoes hst
    exact hgoes.holds hst

end bodies

/-- Behind `if a then for each b f()`: `;; g()` goes on behind the loop in the body of `if`,
`;;; g()` behind the branch in the program, as `g()` does behind a line break; and `else g()` on the
next line goes on with the branch.  Behind `for each b f()` an `else` is a mistake. -/
theorem statements_of_bodies_nested :
    let s : Span := ⟨0, 1⟩
    let loop : List Token := [⟨.keyword .forKw, s⟩, ⟨.keyword .eachKw, s⟩, ⟨.ident "b", s⟩]
    let nested : List Token :=
      [⟨.keyword .ifKw, s⟩, ⟨.ident "a", s⟩, ⟨.keyword .thenKw, s⟩] ++ loop
    let f : List Token := [⟨.ident "f", s⟩, ⟨.symbol .lparen, s⟩, ⟨.symbol .rparen, s⟩]
    let g : List Token := [⟨.ident "g", s⟩, ⟨.symbol .lparen, s⟩, ⟨.symbol .rparen, s⟩, ⟨.eof, s⟩]
    let semi : Token := ⟨.symbol .semicolon, s⟩
    let each : Stmt := .each (.reference (.ident "b")) [.call "f" []]
    let branch : Stmt := .branch (.ident "a") [each] none
    GoesOn (nested ++ (f ++ ([semi, semi] ++ g))) g [.thenBody (.ident "a")] [each] ∧
    readProgram (nested ++ (f ++ ([semi, semi, semi] ++ g))) = (branch :: ·) <$> readProgram g ∧
    readProgram (nested ++ (f ++ ([⟨.newline, s⟩] ++ g))) = (branch :: ·) <$> readProgram g ∧
    GoesOn (nested ++ (f ++ ([] ++ ([⟨.newline, s⟩] ++ ⟨.keyword .elseKw, s⟩ :: g)))) g
      [.elseBody (.ident "a") [each]] [] ∧
    ∃ e, readProgram (loop ++ (f ++ ([] ++ ([] ++ ⟨.keyword .elseKw, s⟩ :: g)))) = .error e := by
  intro s loop nested f g semi each branch
  have htest : Boolean [⟨.ident "a", s⟩] (.ident "a") :=
    (Term.value (Primary.place (.mk .nil)).arith).boolean
  have hloop : Header loop (.each (.reference (.ident "b"))) := .eachOf (.mk .nil) .nil
  have hif : Header _ (.thenBody (.ident "a")) := .thenBody (s := s) (t := s) htest .nil
  have hf : Simple f (.call "f" []) := .call (@Call.mk _ _ _ _ [] _ (.empty .nil))
  obtain ⟨hsemis, hnewlines, helse, -⟩ :=
    statements_of_bodies ((Opens.nil.header hif).header hloop) hf
  obtain ⟨-, -, hmistake, -⟩ := statements_of_bodies (Opens.nil.header hloop) hf
  have hbreak : Newlines [⟨.newline, s⟩] := by simp [Newlines, TokenKind.isNewline]
  refine ⟨?_, ?_, ?_, ?_, ?_⟩
  · exact (hsemis [semi, semi] g (by simp [Semicolons, semi]) (by simp) rfl).1 [_] _ [] rfl rfl
  · exact (hsemis [semi, semi, semi] g (by simp [Semicolons, semi]) (by simp) rfl).2 (by simp)
  · exact hnewlines [⟨.newline, s⟩] g hbreak (by simp) fun helse => by cases helse
  · exact (helse [] [⟨.newline, s⟩] s g (by simp [Semicolons]) hbreak).1 [] [_] _ [] rfl rfl
      (by simp [OpenBody.takesElse])
  · exact (hmistake [] [] s g (by simp [Semicolons]) .nil).2 (by simp [OpenBody.takesElse])

end Edict
