import Edict.Proofs.Grammar.StatementComplete
import Edict.Proofs.Grammar.StatementParallel

/-!
# Bodies

What the readers of statements do with the bodies of branches and loops.  `readBody` reads a body
from its first statement on and `readFurther` what may follow a statement of it; both are the
readers of the model, with `readStatement` for the statements and no more tokens than they are
given.  The theorems say when a statement that has a body is read (`readStatement_if_iff`,
`readStatement_count_iff`, `readStatement_eachItem_iff`, `readStatement_eachOf_iff`), how far a body
goes (`readBody_iff`, `readFurther_of_start`, `readFurther_of_semicolon`, `readFurther_of_other`),
and what stands in front of what these readers leave (`Gives.exists_statement`, `Gives.exists_body`,
`Gives.exists_further`).

## Main definitions

* `Grammar.readBody`, `Grammar.readFurther`: a body, and what follows a statement of it.
* `Grammar.Branches`: what is left to be read of an `if` behind its first body.

## Main statements

* The lemmas `Grammar.readStatement_*_iff`: what each kind of statement with a body is read as.
  They are equivalences, for every rest of the list.
* `Grammar.readBody_iff` and the lemmas `Grammar.readFurther_of_*`: how far a body goes.
* `Gives.exists_statement`, `Gives.exists_body`, `Gives.exists_further`: what
  stands in front of what is left.
-/

namespace Edict

open Grammar

namespace Grammar

/-- Reads a body. -/
def readBody : Reader (List Stmt) := fun ts =>
  @body (ts.length + 1) (fun inside _ => readStatement inside) ts (length_lt_limit ts)

/-- Reads what a body has behind one of its statements. -/
def readFurther (ts : List Token) : Outcome (List Stmt) (ts.length + 1) :=
  @bodyFrom ts.length (fun inside _ => readStatement inside) ts (length_le_limit ts)

variable {ts rest mid : List Token} {b more : List Stmt} {s : Stmt} {t : Span}

/-! ## Any number of tokens -/

/-- Statements are read in the same way under any bound. -/
theorem innerTracks_readStatement (m n : Nat) :
    Seam.self.InnerTracks (i := m) (j := n) (fun inside _ => readStatement inside)
      fun inside _ => readStatement inside :=
  fun _ _ _ _ h => Seam.readStatement_tracks h

/-- What a body is read as does not depend on how many tokens may be read. -/
theorem body_gives_iff {n : Nat} {h : ts.length < n} :
    Gives (body (fun inside _ => readStatement inside) ts h) b rest ↔ Gives (readBody ts) b rest :=
  ⟨Seam.gives_of_tracks_self
      (Seam.body_tracks (innerTracks_readStatement _ _) (Seam.parallel_self ts) _ _),
    Seam.gives_of_tracks_self
      (Seam.body_tracks (innerTracks_readStatement _ _) (Seam.parallel_self ts) _ _)⟩

/-- The same for what stands behind a statement of a body. -/
theorem bodyFrom_gives_iff {n : Nat} {h : ts.length ≤ n} :
    Gives (bodyFrom (fun inside _ => readStatement inside) ts h) more rest ↔
      Gives (readFurther ts) more rest :=
  ⟨Seam.gives_of_tracks_self
      (Seam.bodyFrom_tracks (innerTracks_readStatement _ _) (Seam.parallel_self ts) _ _),
    Seam.gives_of_tracks_self
      (Seam.bodyFrom_tracks (innerTracks_readStatement _ _) (Seam.parallel_self ts) _ _)⟩

/-! ## How far a body goes -/

/-- A statement and what a body has behind it, with any bound on either. -/
theorem statement_further_gives_iff {m n limit : Nat} {o : Outcome Stmt m}
    {hle : ∀ p : Parsed Token Stmt m, p.rest.length ≤ limit}
    {hlt : ∀ p : Parsed Token Stmt m, p.rest.length + 1 ≤ n} :
    Gives (o >>= fun p => bodyFrom (fun inside _ => readStatement inside) p.rest (hle p) >>=
        fun more => .ok (more.map (p.value :: ·) (hlt p))) b rest ↔
      ∃ s mid more, Gives o s mid ∧ Gives (readFurther mid) more rest ∧ b = s :: more := by
  constructor
  · intro h
    obtain ⟨s, mid, hs, h⟩ := gives_bind_iff.mp h
    obtain ⟨more, hmore, rfl⟩ := gives_map_iff.mp (h hs.length_lt)
    exact ⟨s, mid, more, hs, bodyFrom_gives_iff.mp hmore, rfl⟩
  · rintro ⟨s, mid, more, hs, hmore, rfl⟩
    exact Gives.bind hs fun _ => (bodyFrom_gives_iff.mpr hmore).bind fun _ => gives_of_eq_ok rfl

/-- A body is a statement behind line breaks and what follows it. -/
theorem readBody_iff :
    Gives (readBody ts) b rest ↔ ∃ s mid more, Gives (readStatement (Token.skipNewlines ts)) s mid ∧
      Gives (readFurther mid) more rest ∧ b = s :: more :=
  statement_further_gives_iff

/-- A body whose first statement has no line breaks in front of it. -/
theorem readBody_of_start (hts : startsStatement ts = true) :
    Gives (readBody ts) b rest ↔ ∃ s mid more, Gives (readStatement ts) s mid ∧
      Gives (readFurther mid) more rest ∧ b = s :: more := by
  rw [readBody_iff, (skip_of_startsStatement hts).1]

/-- Line breaks in front of a body do not matter. -/
theorem readBody_newlines {nl : List Token} (h : Derives.Newlines nl) :
    Gives (readBody (nl ++ ts)) b rest ↔ Gives (readBody ts) b rest := by
  rw [readBody_iff, readBody_iff, skipNewlines_append h]

/-- A body goes on with a statement right behind a semicolon. -/
theorem readFurther_of_start (hts : startsStatement ts = true) :
    Gives (readFurther (⟨.symbol .semicolon, t⟩ :: ts)) b rest ↔
      ∃ s mid more, Gives (readStatement ts) s mid ∧ Gives (readFurther mid) more rest ∧
        b = s :: more := by
  rw [readFurther, bodyFrom.eq_1, if_pos hts]
  exact statement_further_gives_iff

/-- Otherwise the semicolon is its last token. -/
theorem readFurther_of_semicolon (hts : startsStatement ts = false) :
    Gives (readFurther (⟨.symbol .semicolon, t⟩ :: ts)) more rest ↔ more = [] ∧ rest = ts := by
  have hread : Gives (readFurther (⟨.symbol .semicolon, t⟩ :: ts)) [] ts := by
    rw [readFurther, bodyFrom.eq_1, if_neg (by simp [hts])]
    exact gives_of_eq_ok rfl
  refine ⟨fun h => ?_, ?_⟩
  · obtain ⟨rfl, rfl⟩ := hread.unique h
    exact ⟨rfl, rfl⟩
  · rintro ⟨rfl, rfl⟩
    exact hread

/-- Without a semicolon, nothing follows. -/
theorem readFurther_of_other (hts : (Token.peek ts).kind ≠ .symbol .semicolon) :
    Gives (readFurther ts) more rest ↔ more = [] ∧ rest = ts := by
  have hread : Gives (readFurther ts) [] ts := by
    rw [readFurther, bodyFrom.eq_2]
    · exact gives_of_eq_ok rfl
    · rintro t us _ rfl _
      exact hts rfl
  refine ⟨fun h => ?_, ?_⟩
  · obtain ⟨rfl, rfl⟩ := hread.unique h
    exact ⟨rfl, rfl⟩
  · rintro ⟨rfl, rfl⟩
    exact hread

/-! ## Statements with bodies -/

/-- Behind the body of an `if`, the branch goes on with an `else` behind line breaks and its body,
or ends there. -/
def Branches (c : Expr) (b : List Stmt) (ts : List Token) (s : Stmt) (rest : List Token) : Prop :=
  (∃ t us d, Token.skipNewlines ts = ⟨.keyword .elseKw, t⟩ :: us ∧ Gives (readBody us) d rest ∧
    s = .branch c b (some d)) ∨
  (Token.peek (Token.skipNewlines ts)).kind ≠ .keyword .elseKw ∧ s = .branch c b none ∧ rest = ts

/-- A list whose first token is a keyword begins with it. -/
theorem exists_of_peek_keyword {k : Keyword} (h : (Token.peek ts).kind = .keyword k) :
    ∃ t us, ts = ⟨.keyword k, t⟩ :: us := by
  rcases ts with _ | ⟨⟨k', t⟩, us⟩
  · cases h
  · obtain rfl : k' = .keyword k := h
    exact ⟨t, us, rfl⟩

/-- A sign that is read stands in front of what is left. -/
theorem exists_of_sign {k : Symbol} (h : Gives (sign k ts) () rest) :
    ∃ u, ts = ⟨.symbol k, u⟩ :: rest := by
  obtain ⟨_, hp⟩ := h
  obtain ⟨_, ⟨u, rfl⟩, -, hts⟩ := sign_sound k ts _ hp
  exact ⟨u, hts⟩

/-- A branch is a condition, `then` and a body, with whatever is behind that. -/
theorem readStatement_if_iff :
    Gives (readStatement (⟨.keyword .ifKw, t⟩ :: ts)) s rest ↔
      ∃ c u mid b after, Gives (readCondition ts) c (⟨.keyword .thenKw, u⟩ :: mid) ∧
        Gives (readBody mid) b after ∧ Branches c b after s rest := by
  have hstatement : Gives (readStatement (⟨.keyword .ifKw, t⟩ :: ts)) s rest ↔
      Gives (branch (fun inside _ => readStatement inside) ts (Nat.lt_succ_self _)) s rest := by
    rw [readStatement]
    refine gives_map_iff.trans ⟨?_, fun h => ⟨s, h, rfl⟩⟩
    rintro ⟨s, h, rfl⟩
    exact h
  rw [hstatement]
  constructor
  · intro h
    obtain ⟨c, behind, hc, h⟩ := gives_bind_iff.mp h
    replace h := h hc.length_lt
    dsimp only at h
    split at h
    · rename_i u mid
      obtain ⟨b, after, hb, h⟩ := gives_bind_iff.mp h
      refine ⟨c, u, mid, b, after, hc, body_gives_iff.mp hb, ?_⟩
      replace h := h hb.length_lt
      dsimp only at h
      split at h
      · rename_i v us helse
        obtain ⟨d, hd, rfl⟩ := gives_map_iff.mp h
        exact .inl ⟨v, us, d, helse, body_gives_iff.mp hd, rfl⟩
      · rename_i hno
        obtain ⟨_, heq⟩ := h
        cases heq
        refine .inr ⟨fun helse => ?_, rfl, rfl⟩
        obtain ⟨v, us, heq⟩ := exists_of_peek_keyword helse
        exact hno v us heq
    · obtain ⟨_, heq⟩ := h
      cases heq
    · obtain ⟨_, heq⟩ := h
      cases heq
  · rintro ⟨c, u, mid, b, after, hc, hb, ⟨v, us, d, helse, hd, rfl⟩ | ⟨hno, rfl, rfl⟩⟩
    · exact branch_else hc (fun _ => body_gives_iff.mpr hb) helse (fun _ => body_gives_iff.mpr hd) _
    · refine branch_no_else hc (fun _ => body_gives_iff.mpr hb) (fun v us heq => hno ?_) _
      rw [heq]
      rfl

/-- What is read behind `for` is read by the reader of loops. -/
theorem readStatement_for_iff :
    Gives (readStatement (⟨.keyword .forKw, t⟩ :: ts)) s rest ↔
      Gives (loop (fun inside _ => readStatement inside) ts (Nat.lt_succ_self _)) s rest := by
  rw [readStatement]
  refine gives_map_iff.trans ⟨?_, fun h => ⟨s, h, rfl⟩⟩
  rintro ⟨s, h, rfl⟩
  exact h

/-- A counting loop is an expression in parentheses and a body. -/
theorem readStatement_count_iff {u : Span} :
    Gives (readStatement (⟨.keyword .forKw, t⟩ :: ⟨.symbol .lparen, u⟩ :: ts)) s rest ↔
      ∃ c v mid b, Gives (readExpression ts) c (⟨.symbol .rparen, v⟩ :: mid) ∧
        Gives (readBody mid) b rest ∧ s = .count c b := by
  rw [readStatement_for_iff, loop.eq_4]
  constructor
  · intro h
    obtain ⟨c, behind, hc, h⟩ := gives_bind_iff.mp h
    obtain ⟨⟨⟩, mid, hclose, h⟩ := gives_bind_iff.mp (h hc.length_lt)
    obtain ⟨b, hb, rfl⟩ := gives_map_iff.mp (h hclose.length_lt)
    obtain ⟨v, rfl⟩ := exists_of_sign hclose
    exact ⟨c, v, mid, b, hc, body_gives_iff.mp hb, rfl⟩
  · rintro ⟨c, v, mid, b, hc, hb, rfl⟩
    refine Gives.bind hc fun _ => (gives_sign _ _ _).bind fun _ => ?_
    exact (body_gives_iff.mpr hb).bind fun _ => gives_of_eq_ok rfl

/-- A loop over the items of an array is the array and a body. -/
theorem readStatement_eachItem_iff {u v : Span} :
    Gives (readStatement (⟨.keyword .forKw, t⟩ :: ⟨.keyword .eachKw, u⟩ ::
        ⟨.symbol .lbracket, v⟩ :: ts)) s rest ↔
      ∃ items mid b, Gives (arrayLiteral (⟨.symbol .lbracket, v⟩ :: ts)) items mid ∧
        Gives (readBody mid) b rest ∧ s = .each (.literals items) b := by
  rw [readStatement_for_iff, loop.eq_1]
  constructor
  · intro h
    obtain ⟨items, mid, hitems, h⟩ := gives_bind_iff.mp h
    obtain ⟨b, hb, rfl⟩ := gives_map_iff.mp (h hitems.length_lt)
    exact ⟨items, mid, b, hitems, body_gives_iff.mp hb, rfl⟩
  · rintro ⟨items, mid, b, hitems, hb, rfl⟩
    exact hitems.bind fun _ => (body_gives_iff.mpr hb).bind fun _ => gives_of_eq_ok rfl

/-- A loop over the items of a value is the place of the value and a body. -/
theorem readStatement_eachOf_iff {u v : Span} {root : String} :
    Gives (readStatement (⟨.keyword .forKw, t⟩ :: ⟨.keyword .eachKw, u⟩ ::
        ⟨.ident root, v⟩ :: ts)) s rest ↔
      ∃ r mid b, Gives (reference (⟨.ident root, v⟩ :: ts)) r mid ∧
        Gives (readBody mid) b rest ∧ s = .each (.reference r) b := by
  rw [readStatement_for_iff, loop.eq_2]
  constructor
  · intro h
    obtain ⟨r, mid, hr, h⟩ := gives_bind_iff.mp h
    obtain ⟨b, hb, rfl⟩ := gives_map_iff.mp (h hr.length_lt)
    exact ⟨r, mid, b, hr, body_gives_iff.mp hb, rfl⟩
  · rintro ⟨r, mid, b, hr, hb, rfl⟩
    exact hr.bind fun _ => (body_gives_iff.mpr hb).bind fun _ => gives_of_eq_ok rfl

end Grammar

/-! ## What is used -/

section used

open Derives

variable {ts used rest : List Token} {s : Stmt} {b more : List Stmt}

/-- What a reader of statements uses derives the statement. -/
theorem Gives.exists_statement (h : Gives (readStatement ts) s rest) :
    ∃ used, Statement used s ∧ ts = used ++ rest := by
  obtain ⟨_, h⟩ := h
  obtain ⟨used, hused, -, hts⟩ := readStatement_sound ts _ h
  exact ⟨used, hused, hts⟩

/-- Where a statement is read, one may begin. -/
theorem Gives.starts (h : Gives (readStatement ts) s rest) : startsStatement ts = true := by
  obtain ⟨used, hused, rfl⟩ := h.exists_statement
  obtain ⟨-, -, -, hstarts⟩ := hused.head rest
  exact hstarts

/-- What a reader of bodies uses derives the body. -/
theorem Gives.exists_body (h : Gives (readBody ts) b rest) :
    ∃ used, Body used b ∧ ts = used ++ rest := by
  obtain ⟨_, h⟩ := h
  obtain ⟨used, hused, -, hts⟩ := body_sound (fun us _ => readStatement_sound us) ts _ _ h
  exact ⟨used, hused, hts⟩

/-- A body begins with a statement, behind line breaks. -/
theorem Derives.Body.exists_start (h : Body used b) (rest : List Token) :
    ∃ nl vs, used = nl ++ vs ∧ Newlines nl ∧ startsStatement (vs ++ rest) = true := by
  cases h with
  | @mk nl ts us semi first more hnl hfirst _ _ =>
      obtain ⟨-, -, -, hstarts⟩ := hfirst.head (us ++ semi ++ rest)
      exact ⟨nl, _, rfl, hnl, by simpa using hstarts⟩

/-- The same of a body that is read. -/
theorem Gives.exists_start (h : Gives (readBody ts) b rest) :
    ∃ nl used, ts = nl ++ (used ++ rest) ∧ Newlines nl ∧ startsStatement (used ++ rest) = true := by
  obtain ⟨used, hused, rfl⟩ := h.exists_body
  obtain ⟨nl, vs, rfl, hnl, hstart⟩ := hused.exists_start rest
  exact ⟨nl, vs, List.append_assoc nl vs rest, hnl, hstart⟩

/-- What is read behind a statement of a body stands in front of what is left. -/
theorem Gives.exists_further (h : Gives (readFurther ts) more rest) :
    ∃ used, ts = used ++ rest := by
  obtain ⟨_, h⟩ := h
  obtain ⟨used, -, -, hts⟩ := bodyFrom_sound (fun us _ => readStatement_sound us) ts _ _ h
  exact ⟨used, hts⟩

/-- A statement and what is read behind it stand one after the other. -/
theorem Gives.exists_split {mid : List Token} (hs : Gives (readStatement (used ++ rest)) s mid)
    (hmore : Gives (readFurther mid) more rest) :
    ∃ us vs, used = us ++ vs ∧ mid = vs ++ rest ∧ Statement us s := by
  obtain ⟨us, hus, hused⟩ := hs.exists_statement
  obtain ⟨vs, rfl⟩ := hmore.exists_further
  rw [← List.append_assoc] at hused
  exact ⟨us, vs, List.append_cancel_right hused, rfl, hus⟩

/-- What is read there begins with a semicolon, if it is not empty. -/
theorem Gives.semicolon_of_further {t : Token}
    (h : Gives (readFurther (t :: (used ++ rest))) more rest) : t.kind = .symbol .semicolon := by
  by_cases ht : t.kind = .symbol .semicolon
  · exact ht
  · have hother : (Token.peek (t :: (used ++ rest))).kind ≠ .symbol .semicolon := ht
    obtain ⟨-, heq⟩ := (readFurther_of_other hother).mp h
    have hcount := congrArg List.length heq
    rw [List.length_cons, List.length_append] at hcount
    omega

/-- If it is empty, what is left does not begin with one. -/
theorem Gives.ne_semicolon_of_further (h : Gives (readFurther rest) more rest) :
    (Token.peek rest).kind ≠ .symbol .semicolon := by
  rcases rest with _ | ⟨⟨k, t⟩, ts⟩
  · exact nofun
  · rintro rfl
    by_cases hstart : startsStatement ts = true
    · obtain ⟨s, mid, after, hs, hmore, -⟩ := (readFurther_of_start hstart).mp h
      obtain ⟨us, rfl⟩ := hmore.exists_further
      have hlt := hs.length_lt
      rw [List.length_append, List.length_cons] at hlt
      omega
    · rw [Bool.not_eq_true] at hstart
      obtain ⟨-, heq⟩ := (readFurther_of_semicolon hstart).mp h
      exact List.cons_ne_self _ _ heq

/-- A statement of a body ends in front of what ends bodies, if the body does. -/
theorem Gives.endsBody (h : Gives (readFurther ts) more rest)
    (hrest : (Token.peek rest).kind.endsBody = true) : (Token.peek ts).kind.endsBody = true := by
  by_cases hts : (Token.peek ts).kind = .symbol .semicolon
  · rw [hts]
    rfl
  · obtain ⟨-, rfl⟩ := (readFurther_of_other hts).mp h
    exact hrest

end used

end Edict
