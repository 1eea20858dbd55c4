import Edict.Proofs.Grammar.Derivation

/-!
# What readers return

The vocabulary in which readers are compared with derivations.

* `Gives o v rest`: the outcome `o` is success, with the value `v` and `rest` left over.
* `ReadsOff D ts v rest`: the tokens that `ts` has in front of `rest` derive `v` under the rule `D`,
  and none of them is an end of input.
* `EndsAt n ts`: nothing that binds as tightly as `n` goes on at the front of `ts`.  A reader that
  takes as much as it can stops exactly there.

## Main statements

* `gives_bind_iff`, `gives_map_iff`: what a sequence of readers gives.
* `ReadsOff.cat`, `ReadsOff.map`: tokens that are read off one after the other.
* `Derives.Delimited.exists_closing`: a list with commas, taken apart at its closing bracket.
-/

namespace Edict

open Grammar Derives

/-! ## Outcomes -/

section outcomes

variable {α β : Type} {m n : Nat}

/-- A sequence that succeeds has a first part that succeeds. -/
theorem ok_of_bind {ε : Type} {o : Except ε α} {f : α → Except ε β} {b : β}
    (h : (o >>= f) = .ok b) : ∃ a, o = .ok a ∧ f a = .ok b := by
  cases o with
  | error => cases h
  | ok a => exact ⟨a, rfl, h⟩

/-- A sequence that fails has a part that fails. -/
theorem error_of_bind {ε : Type} {o : Except ε α} {f : α → Except ε β} {e : ε}
    (h : (o >>= f) = .error e) : o = .error e ∨ ∃ a, o = .ok a ∧ f a = .error e := by
  cases o with
  | error =>
      cases h
      exact .inl rfl
  | ok a => exact .inr ⟨a, rfl, h⟩

/-- The outcome is success, with this value and these tokens left over. -/
def Gives (o : Outcome α n) (v : α) (rest : List Token) : Prop := ∃ h, o = .ok ⟨v, rest, h⟩

/-- What an outcome gives, it gives by its value and its rest. -/
theorem gives_of_eq_ok {o : Outcome α n} {p : Parsed Token α n} (h : o = .ok p) :
    Gives o p.value p.rest := ⟨p.shorter, h⟩

/-- A first part that succeeds is followed by the second part. -/
theorem Gives.bind {o : Outcome α m} {f : Parsed Token α m → Outcome β n} {a : α} {b : β}
    {r s : List Token} (h : Gives o a r) (hf : ∀ h, Gives (f ⟨a, r, h⟩) b s) :
    Gives (o >>= f) b s := by
  obtain ⟨hr, rfl⟩ := h
  exact hf hr

/-- A sequence gives what its second part gives behind its first part. -/
theorem gives_bind_iff {o : Outcome α m} {f : Parsed Token α m → Outcome β n} {b : β}
    {s : List Token} :
    Gives (o >>= f) b s ↔ ∃ a r, Gives o a r ∧ ∀ h, Gives (f ⟨a, r, h⟩) b s := by
  refine ⟨?_, fun ⟨_, _, h, hf⟩ => h.bind hf⟩
  rintro ⟨hs, hok⟩
  obtain ⟨p, hp, hok⟩ := ok_of_bind hok
  exact ⟨p.value, p.rest, gives_of_eq_ok hp, fun _ => ⟨hs, hok⟩⟩

/-- What is made of a value is given where the value is. -/
theorem gives_map_iff {o : Outcome α m} {g : α → β} {hle : m ≤ n} {b : β} {s : List Token} :
    Gives (o >>= fun p => .ok (p.map g hle)) b s ↔ ∃ a, Gives o a s ∧ b = g a := by
  refine ⟨?_, fun ⟨_, h, hb⟩ => h.bind fun _ => hb ▸ gives_of_eq_ok rfl⟩
  rintro ⟨_, hok⟩
  obtain ⟨p, hp, hok⟩ := ok_of_bind hok
  cases hok
  exact ⟨p.value, gives_of_eq_ok hp, rfl⟩

/-- An outcome gives one value and one rest. -/
theorem Gives.unique {o : Outcome α n} {v v' : α} {rest rest' : List Token} (h : Gives o v rest)
    (k : Gives o v' rest') : v = v' ∧ rest = rest' := by
  obtain ⟨_, rfl⟩ := h
  obtain ⟨_, heq⟩ := k
  cases heq
  exact ⟨rfl, rfl⟩

/-- What is left over has fewer tokens than the bound. -/
theorem Gives.length_lt {o : Outcome α n} {v : α} {rest : List Token} (h : Gives o v rest) :
    rest.length < n := h.1

end outcomes

-- These two have names so that definitions that need them are the same wherever they stand.

/-- A reader of parts may be given all the tokens. -/
theorem Grammar.length_le_limit (ts : List Token) : ts.length ≤ ts.length := Nat.le_refl _

/-- So it may under a larger limit. -/
theorem Grammar.length_lt_limit (ts : List Token) : ts.length < ts.length + 1 := Nat.lt_succ_self _

/-- A sign in front is read. -/
theorem gives_sign (s : Symbol) (span : Span) (rest : List Token) :
    Gives (sign s (⟨.symbol s, span⟩ :: rest)) () rest :=
  ⟨Nat.lt_succ_self _, by simp [sign]⟩

/-- A token that has a role is no end of input, if that has none. -/
theorem TokenKind.ne_eof_of_role {α : Type} {role : TokenKind → Option α} {k : TokenKind} {a : α}
    (h : role k = some a) (heof : role .eof = none) : k ≠ .eof := by
  rintro rfl
  rw [heof] at h
  cases h

/-! ## Layout -/

namespace Derives

/-- No line breaks are line breaks. -/
@[simp] theorem Newlines.nil : Newlines [] := by simp [Newlines]

/-- No separators are separators. -/
@[simp] theorem Separators.nil : Separators [] := by simp [Separators]

/-- No `;` is an optional `;`. -/
@[simp] theorem Semicolon?.nil : Semicolon? [] := .inl rfl

/-- Line breaks are no end of input. -/
theorem Newlines.ne_eof {ts : List Token} (h : Newlines ts) : ∀ t ∈ ts, t.kind ≠ .eof := by
  intro t ht hk
  have := h t ht
  rw [hk] at this
  cases this

/-- Separators are no end of input. -/
theorem Separators.ne_eof {ts : List Token} (h : Separators ts) : ∀ t ∈ ts, t.kind ≠ .eof := by
  intro t ht hk
  have := h t ht
  rw [hk] at this
  cases this

/-- A list without its first tokens of some kind, together with these. -/
theorem exists_skipped (p : Token → Bool) (ts : List Token) :
    ∃ skipped, (∀ t ∈ skipped, p t = true) ∧ ts = skipped ++ ts.dropWhile p :=
  ⟨ts.takeWhile p, fun _ ht => List.all_eq_true.mp List.all_takeWhile _ ht,
    (List.takeWhile_append_dropWhile).symm⟩

/-- What `skipNewlines` skips are line breaks. -/
theorem exists_newlines (ts : List Token) :
    ∃ nl, Newlines nl ∧ ts = nl ++ Token.skipNewlines ts :=
  exists_skipped (·.kind.isNewline) ts

/-- What `skipSeparators` skips are separators. -/
theorem exists_separators (ts : List Token) :
    ∃ seps, Separators seps ∧ ts = seps ++ Token.skipSeparators ts :=
  exists_skipped (·.kind.isSeparator) ts

/-- Line breaks after line breaks. -/
theorem Newlines.append {ts us : List Token} (ht : Newlines ts) (hu : Newlines us) :
    Newlines (ts ++ us) := by
  intro t h
  exact (List.mem_append.mp h).elim (ht t) (hu t)

/-- Line breaks are separators. -/
theorem Newlines.separators {ts : List Token} (h : Newlines ts) : Separators ts := by
  intro t ht
  have hk := h t ht
  unfold TokenKind.isNewline at hk
  split at hk
  · rename_i hnl
    rw [hnl]
    rfl
  · cases hk

/-- Items need no line breaks in front. -/
theorem Delimited.of_items {α : Type} {p : List Token → α → Prop} {trailing : Bool}
    {ts : List Token} {as : List α} (h : Items p ts as) : Delimited trailing p ts as :=
  .items Newlines.nil h

/-- One more item in front of what stands between brackets. -/
theorem Delimited.cons {α : Type} {p : List Token → α → Prop} {ts nl nl' us : List Token} {s : Span}
    {a : α} {as : List α} (ha : p ts a) (hnl : Newlines nl) (hnl' : Newlines nl')
    (h : Delimited true p us as) :
    Delimited true p (ts ++ (nl ++ ⟨.symbol .comma, s⟩ :: (nl' ++ us))) (a :: as) := by
  cases h with
  | empty hus =>
      have := Delimited.comma (s := s) rfl Newlines.nil (.last ha hnl) (hnl'.append hus)
      simpa using this
  | items hnl'' hitems =>
      have : Delimited true p _ (a :: as) :=
        .of_items (.more (s := s) ha hnl (hnl'.append hnl'') hitems)
      simpa using this
  | comma _ hnl'' hitems hafter =>
      have := Items.more (s := s) ha hnl (hnl'.append hnl'') hitems
      simpa using Delimited.comma rfl Newlines.nil this hafter

/-- Line breaks in front of what stands between brackets. -/
theorem Delimited.append {α : Type} {p : List Token → α → Prop} {trailing : Bool}
    {nl us : List Token} {as : List α} (hnl : Newlines nl) (h : Delimited trailing p us as) :
    Delimited trailing p (nl ++ us) as := by
  cases h with
  | empty hus => exact .empty (hnl.append hus)
  | items hnl' hitems =>
      rw [← List.append_assoc]
      exact .items (hnl.append hnl') hitems
  | comma ht hnl' hitems hafter =>
      rw [← List.append_assoc]
      exact .comma ht (hnl.append hnl') hitems hafter

/-- What `D` derives, with the closing bracket behind it. -/
def Closed {α : Type} (bracket : Symbol) (D : List Token → α → Prop) (ts : List Token) (a : α) :
    Prop := ∃ us s, D us a ∧ ts = us ++ [⟨.symbol bracket, s⟩]

/-- What stands behind the last item: the closing bracket and the rest, and before them, if
`trailing` allows it, a comma. -/
inductive Closing (bracket : Symbol) (rest : List Token) : Bool → List Token → Prop
  | bracket {trailing : Bool} {s : Span} :
      Closing bracket rest trailing (⟨.symbol bracket, s⟩ :: rest)
  | comma {nl : List Token} {s t : Span} : Newlines nl →
      Closing bracket rest true (⟨.symbol .comma, s⟩ :: (nl ++ ⟨.symbol bracket, t⟩ :: rest))

/-- What stands between brackets is empty or ends with an item, up to line breaks in front. -/
theorem Delimited.exists_closing {α : Type} {p : List Token → α → Prop} {trailing : Bool}
    {us : List Token} {as : List α} (h : Delimited trailing p us as) (bracket : Symbol) (s : Span)
    (rest : List Token) :
    ∃ nl vs, Newlines nl ∧ us ++ ⟨.symbol bracket, s⟩ :: rest = nl ++ vs ∧
      (as = [] ∧ vs = ⟨.symbol bracket, s⟩ :: rest ∨
        ∃ ts tail, Items p ts as ∧ vs = ts ++ tail ∧ Closing bracket rest trailing tail) := by
  cases h with
  | empty hus => exact ⟨_, _, hus, rfl, .inl ⟨rfl, rfl⟩⟩
  | @items nl ts _ hnl hitems =>
      exact ⟨nl, _, hnl, List.append_assoc .., .inr ⟨ts, _, hitems, rfl, .bracket⟩⟩
  | @comma nl ts nl' t _ ht hnl hitems hnl' =>
      subst ht
      exact ⟨nl, _, hnl, by simp, .inr ⟨ts, _, hitems, rfl, .comma (s := t) (t := s) hnl'⟩⟩

end Derives

/-- Line breaks in front are skipped. -/
theorem skipNewlines_append {nl : List Token} (h : Newlines nl) (ts : List Token) :
    Token.skipNewlines (nl ++ ts) = Token.skipNewlines ts :=
  List.dropWhile_append_of_pos h

/-- Separators in front are skipped. -/
theorem skipSeparators_append {seps : List Token} (h : Separators seps) (ts : List Token) :
    Token.skipSeparators (seps ++ ts) = Token.skipSeparators ts :=
  List.dropWhile_append_of_pos h

/-- Nothing is skipped in front of a token that is no line break. -/
theorem skipNewlines_cons {t : Token} (h : t.kind.isNewline = false) (ts : List Token) :
    Token.skipNewlines (t :: ts) = t :: ts := by
  simp [Token.skipNewlines, h]

/-- No line breaks are skipped in front of items that begin with none. -/
theorem Derives.Items.skipNewlines_eq {α : Type} {p : List Token → α → Prop} {ts : List Token}
    {as : List α} (h : Items p ts as)
    (hp : ∀ us a, p us a → ∃ t vs, us = t :: vs ∧ t.kind.isNewline = false) (tail : List Token) :
    Token.skipNewlines (ts ++ tail) = ts ++ tail := by
  cases h with
  | last ha _ =>
      obtain ⟨t, vs, rfl, ht⟩ := hp _ _ ha
      exact skipNewlines_cons ht _
  | more ha _ _ _ =>
      obtain ⟨t, vs, rfl, ht⟩ := hp _ _ ha
      exact skipNewlines_cons ht _

/-- Nothing is skipped in front of a token that separates nothing. -/
theorem skipSeparators_cons {t : Token} (h : t.kind.isSeparator = false) (ts : List Token) :
    Token.skipSeparators (t :: ts) = t :: ts := by
  simp [Token.skipSeparators, h]

/-! ## What is read off a list

Soundness is proved by putting together what the parts of a reader read off the list: `ReadsOff.cat`
for one part after the other, `ReadsOff.map` to apply a rule of the grammar to the parts. -/

section readsOff

variable {α β : Type} {n : Nat}

/-- The tokens in front of `rest` derive `v`; none of them is an end of input. -/
def ReadsOff (D : List Token → α → Prop) (ts : List Token) (v : α) (rest : List Token) : Prop :=
  ∃ used, D used v ∧ (∀ t ∈ used, t.kind ≠ .eof) ∧ ts = used ++ rest

/-- Whatever the outcome gives is derived by the tokens in front of what it leaves. -/
def Sound (D : List Token → α → Prop) (ts : List Token) (o : Outcome α n) : Prop :=
  ∀ p, o = .ok p → ReadsOff D ts p.value p.rest

/-- One piece of a list after the other. -/
def Cat (D : List Token → α → Prop) (E : List Token → β → Prop) (ts : List Token) (p : α × β) :
    Prop := ∃ us vs, D us p.1 ∧ E vs p.2 ∧ ts = us ++ vs

/-- A single token. -/
def One (t : Token) (ts : List Token) (_ : Unit) : Prop := ts = [t]

/-- A single sign. -/
def Sign (s : Symbol) (ts : List Token) (_ : Unit) : Prop := ∃ span, ts = [⟨.symbol s, span⟩]

/-- Line breaks. -/
def Breaks (ts : List Token) (_ : Unit) : Prop := Newlines ts

/-- Separators. -/
def Gaps (ts : List Token) (_ : Unit) : Prop := Separators ts

namespace ReadsOff

variable {D F : List Token → α → Prop} {E : List Token → β → Prop} {ts mid rest : List Token}
  {a : α} {b : β}

/-- Two parts, the second of which begins where the first one ends. -/
theorem cat (h : ReadsOff D ts a mid) (k : ReadsOff E mid b rest) :
    ReadsOff (Cat D E) ts (a, b) rest := by
  obtain ⟨us, hus, hu, rfl⟩ := h
  obtain ⟨vs, hvs, hv, rfl⟩ := k
  refine ⟨us ++ vs, ⟨us, vs, hus, hvs, rfl⟩, ?_, (List.append_assoc us vs rest).symm⟩
  intro t ht
  exact (List.mem_append.mp ht).elim (hu t) (hv t)

/-- The same tokens under another rule. -/
theorem map {G : List Token → β → Prop} (h : ReadsOff D ts a rest) (hDG : ∀ us, D us a → G us b) :
    ReadsOff G ts b rest := by
  obtain ⟨us, hus, hu, hts⟩ := h
  exact ⟨us, hDG us hus, hu, hts⟩

/-- The same tokens under another rule, which may depend on what follows them. -/
theorem map_of_eq {G : List Token → β → Prop} (h : ReadsOff D ts a rest)
    (hDG : ∀ us, D us a → ts = us ++ rest → G us b) : ReadsOff G ts b rest := by
  obtain ⟨us, hus, hu, hts⟩ := h
  exact ⟨us, hDG us hus hts, hu, hts⟩

/-- Nothing is read off. -/
theorem nothing (h : D [] a) : ReadsOff D ts a ts := ⟨[], h, by simp, rfl⟩

/-- The first token is read off. -/
theorem one (t : Token) (ht : t.kind ≠ .eof) : ReadsOff (One t) (t :: ts) () ts :=
  ⟨[t], rfl, by simpa using ht, rfl⟩

/-- Line breaks are read off by skipping them. -/
theorem breaks (ts : List Token) : ReadsOff Breaks ts () (Token.skipNewlines ts) := by
  obtain ⟨nl, hnl, hts⟩ := exists_newlines ts
  exact ⟨nl, hnl, hnl.ne_eof, hts⟩

/-- Separators are read off by skipping them. -/
theorem gaps (ts : List Token) : ReadsOff Gaps ts () (Token.skipSeparators ts) := by
  obtain ⟨seps, hseps, hts⟩ := exists_separators ts
  exact ⟨seps, hseps, hseps.ne_eof, hts⟩

end ReadsOff

/-- A sign that is read stands in front of the rest. -/
theorem sign_sound (s : Symbol) (ts : List Token) : Sound (Sign s) ts (sign s ts) := by
  intro p hp
  unfold sign at hp
  split at hp
  · rename_i t span rest
    split at hp
    · rename_i hts
      cases hp
      exact (ReadsOff.one _ (by simp)).map fun us hus => ⟨span, by rw [hus, hts]⟩
    · cases hp
  · cases hp

end readsOff

/-! ## Where constructs begin -/

/-- Whether a primary begins with the token. -/
def TokenKind.startsPrimary : TokenKind → Bool
  | .text _ | .number _ | .bool _ | .ident _ | .symbol .lbrace => true
  | _ => false

/-- Whether a term begins with the token. -/
def TokenKind.startsTerm (k : TokenKind) : Bool := k.startsPrimary || k == .symbol .lparen

/-- What begins a term is no line break, no closing bracket, no combinator and no end of a
statement. -/
theorem not_startsTerm {k : TokenKind} (h : k.startsTerm = true) :
    k.isNewline = false ∧ k ≠ .symbol .rparen ∧ k ≠ .symbol .rbrace ∧ k.combinator? = none ∧
      k ≠ .keyword .thenKw ∧ k ≠ .symbol .comma ∧ k.endsStatement = false := by
  cases k with
  | text | number | bool | ident => exact ⟨rfl, nofun, nofun, rfl, nofun, nofun, rfl⟩
  | symbol s =>
      cases s <;> first
        | exact absurd h (by decide)
        | exact ⟨rfl, nofun, nofun, rfl, nofun, nofun, rfl⟩
  | _ => cases h

namespace Grammar

variable {limit : Nat} {inner : Nested limit} {ts : List Token}

/-- Where no primary begins, none is read. -/
theorem primary_eq_error (hts : (Token.peek ts).kind.startsPrimary = false) (ht) :
    primary inner ts ht = .error (.expecting .value ts) := by
  unfold primary
  split
  · cases hts
  · cases hts
  · cases hts
  · cases hts
  · cases hts
  · cases hts
  · rfl

/-- Where no primary begins, no arithmetic chain does. -/
theorem arith_eq_error (hts : (Token.peek ts).kind.startsPrimary = false) (ht) :
    arith inner ts ht = .error (.expecting .value ts) := by
  unfold arith
  rw [primary_eq_error hts]
  rfl

end Grammar

/-! ## Where constructs end -/

/-- How tightly a sign binds to an expression in front of it. -/
def Symbol.tightness : Symbol → Nat
  | .dot | .lbracket | .lparen => 4
  | .plus | .minus | .star | .slash => 3
  | .eqEq | .notEq | .lt | .gt | .ltEq | .gtEq => 2
  | _ => 0

/-- How tightly a token binds to an expression in front of it: steps of a path and arguments most
tightly, then arithmetic, comparisons, combinators; `0` if it does not go on with an expression. -/
def TokenKind.tightness : TokenKind → Nat
  | .symbol s => s.tightness
  | .number n => if n.negative then 3 else 0
  | .keyword .isKw | .keyword .inKw => 2
  | .combinator _ => 1
  | _ => 0

/-- Nothing that binds as tightly as `n` stands at the front of the list. -/
def EndsAt (n : Nat) (ts : List Token) : Prop := (Token.peek ts).kind.tightness < n

/-- What ends a construct ends every one that binds more tightly. -/
theorem EndsAt.mono {m n : Nat} {ts : List Token} (h : EndsAt m ts) (hmn : m ≤ n) : EndsAt n ts :=
  Nat.lt_of_lt_of_le h hmn

/-- The first token of a list that has one. -/
@[simp] theorem peek_cons (t : Token) (ts : List Token) : Token.peek (t :: ts) = t := rfl

/-- A first token decides what ends in front of it. -/
theorem endsAt_cons {n : Nat} {t : Token} {ts : List Token} :
    EndsAt n (t :: ts) ↔ t.kind.tightness < n := Iff.rfl

/-- Line breaks go on with no expression. -/
theorem Derives.Newlines.endsAt {n : Nat} {nl ts : List Token} (h : Newlines nl) (hn : 0 < n)
    (hts : EndsAt n ts) : EndsAt n (nl ++ ts) := by
  rcases nl with _ | ⟨t, nl⟩
  · exact hts
  · have ht : t.kind.isNewline = true := h t List.mem_cons_self
    show t.kind.tightness < n
    rcases hk : t.kind
    all_goals first | exact hn | (rw [hk] at ht; cases ht)

/-- Neither a closing bracket nor a comma goes on with an expression. -/
theorem Derives.Closing.endsAt {n : Nat} {bracket : Symbol} {trailing : Bool}
    {rest tail : List Token} (h : Closing bracket rest trailing tail) (hn : 0 < n)
    (hb : bracket.tightness = 0) : EndsAt n tail := by
  cases h with
  | bracket => exact (endsAt_cons ..).mpr (Nat.lt_of_le_of_lt (Nat.le_of_eq hb) hn)
  | comma => exact hn

/-- Arithmetic signs bind as arithmetic. -/
theorem tightness_of_arithOp? {k : TokenKind} {op : ArithOp} (h : k.arithOp? = some op) :
    k.tightness = 3 := by
  unfold TokenKind.arithOp? at h
  split at h <;> first | rfl | cases h

/-- Negative numbers bind as arithmetic. -/
theorem tightness_of_negative? {k : TokenKind} {x : Float} (h : k.negative? = some x) :
    k.tightness = 3 := by
  cases k <;> try cases h
  rename_i n
  simp only [TokenKind.negative?, Numeral.negative?] at h
  split at h
  · rename_i hn
    exact if_pos hn
  · cases h

/-- Comparisons bind as comparisons. -/
theorem tightness_of_compareOp? {k : TokenKind} {op : CompareOp} (h : k.compareOp? = some op) :
    k.tightness = 2 := by
  unfold TokenKind.compareOp? at h
  split at h <;> first | rfl | cases h

/-- Assignment signs go on with no expression. -/
theorem tightness_of_assignOp? {k : TokenKind} {op : AssignOp} (h : k.assignOp? = some op) :
    k.tightness = 0 := by
  unfold TokenKind.assignOp? at h
  split at h <;> first | rfl | cases h

/-! ### What a construct that ends here does not meet -/

section ends

variable {t : Token} {ts : List Token}

/-- Arithmetic that ends is followed by no arithmetic sign. -/
theorem arithOp?_of_endsAt (h : EndsAt 3 (t :: ts)) : t.kind.arithOp? = none := by
  rcases ho : t.kind.arithOp? with _ | op
  · rfl
  · exact absurd h (by simp [endsAt_cons, tightness_of_arithOp? ho])

/-- Arithmetic that ends is followed by no negative number. -/
theorem negative?_of_endsAt (h : EndsAt 3 (t :: ts)) : t.kind.negative? = none := by
  rcases hx : t.kind.negative? with _ | x
  · rfl
  · exact absurd h (by simp [endsAt_cons, tightness_of_negative? hx])

/-- A term that ends is followed by no comparison. -/
theorem compareOp?_of_endsAt (h : EndsAt 2 (t :: ts)) : t.kind.compareOp? = none := by
  rcases ho : t.kind.compareOp? with _ | op
  · rfl
  · exact absurd h (by simp [endsAt_cons, tightness_of_compareOp? ho])

end ends

/-! ## Programs behind separators -/

section programs

variable {ts us rest : List Token} {t : Token}

/-- There is nothing to read where the input ends. -/
theorem readProgram_of_eof (h : (Token.peek (Token.skipSeparators ts)).kind = .eof) :
    readProgram ts = .ok [] := by
  fun_cases readProgram ts with
  | case1 => rfl
  | case2 => rfl
  | case3 t rest hne hr _ =>
      obtain ⟨kind, span⟩ := t
      rw [hr, peek_cons] at h
      cases h
      exact absurd rfl (hne span)

/-- Otherwise the program begins with a statement. -/
theorem readProgram_of_statement (hts : Token.skipSeparators ts = t :: rest)
    (ht : t.kind ≠ .eof) :
    readProgram ts = do
      let s ← readStatement (t :: rest)
      statementEnd s.rest
      let more ← readProgram s.rest
      return s.value :: more := by
  fun_cases readProgram ts with
  | case1 hr =>
      rw [hr] at hts
      cases hts
  | case2 s rest hr =>
      rw [hr] at hts
      cases hts
      exact absurd rfl ht
  | case3 t rest hne hr _ =>
      rw [hr] at hts
      cases hts
      rfl

/-- Separators in front of a program do not matter. -/
theorem readProgram_congr (h : Token.skipSeparators ts = Token.skipSeparators us) :
    readProgram ts = readProgram us := by
  by_cases heof : (Token.peek (Token.skipSeparators us)).kind = .eof
  · rw [readProgram_of_eof (h ▸ heof), readProgram_of_eof heof]
  · rcases hus : Token.skipSeparators us with _ | ⟨t, rest⟩
    · rw [hus] at heof
      exact absurd rfl heof
    · rw [hus, peek_cons] at heof
      rw [readProgram_of_statement (h.trans hus) heof, readProgram_of_statement hus heof]

end programs

end Edict
