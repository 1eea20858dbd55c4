import Edict.Proofs.Grammar.ExpressionComplete

/-!
# Where line breaks are free

Line breaks may be put into some of the gaps between tokens.  Which ones, the tokens in front tell:
a `Gap` holds the brackets that are open there, with what each of them belongs to, and what the last
token leaves to be told of the next one.  `Gap.free` says whether line breaks may stand in a gap in
front of a token: behind `then`, `else`, the header of a loop, a comma and the opening bracket of a
call, an object or an array, and in front of `else`, a comma and the closing bracket of one of them.

`Spread g ts us` says that the tokens `us` behind the gap `g` are the tokens `ts` with line breaks
in free gaps.  What derives an expression derives it with them, too (`carried_boolean`), and behind
an expression no gap is free by what stands in front of it.

## Main definitions

* `Gap`, `Gap.after`, `Gap.free`: what the tokens in front of a gap tell, and whether it is free.
* `Spread`: line breaks are put into free gaps.
* `Carried`: tokens with line breaks in their free gaps derive the same.

## Main statements

* `carried_boolean`: expressions, whatever is open around them.
* `Derives.Delimited.carried`: lists with commas, from which those of calls, objects and arrays
  follow.
-/

namespace Edict

open Derives

/-! ## Gaps -/

/-- What an open bracket belongs to. -/
inductive Bracket where
  | call
  | object
  | array
  /-- The number of rounds of a loop. -/
  | rounds
  /-- A key in a path; it may be the path to what a loop runs through. -/
  | key (source : Bool)
  /-- A condition in parentheses. -/
  | group
deriving DecidableEq

/-- What the last token leaves to be told of the next one. -/
inductive Mode where
  | plain
  /-- Line breaks may follow. -/
  | loose
  /-- A parenthesis opens a call. -/
  | name
  /-- A parenthesis opens the number of rounds of a loop. -/
  | loop
  /-- A bracket opens an array, and a name begins the path to what a loop runs through. -/
  | each
  /-- The path to what a loop runs through has ended, unless it goes on. -/
  | source
deriving DecidableEq

/-- What a bracket that is closed leaves to be told. -/
def Bracket.mode : Bracket → Mode
  | .array | .rounds => .loose
  | .key true => .source
  | _ => .plain

/-- A gap between tokens. -/
structure Gap where
  opened : List Bracket
  mode : Mode

namespace Gap

/-- The gap behind a bracket that closes the last one. -/
def closed : List Bracket → Gap
  | [] => ⟨[], .plain⟩
  | b :: opened => ⟨opened, b.mode⟩

/-- The gap behind a token. -/
def after (g : Gap) : TokenKind → Gap
  | .newline => g
  | .keyword .thenKw | .keyword .elseKw | .symbol .comma => ⟨g.opened, .loose⟩
  | .keyword .forKw => ⟨g.opened, .loop⟩
  | .keyword .eachKw => ⟨g.opened, .each⟩
  | .ident _ => ⟨g.opened, if g.mode = .each then .source else .name⟩
  | .symbol .dot => ⟨g.opened, if g.mode = .source then .each else .plain⟩
  | .symbol .lparen =>
      match g.mode with
      | .name => ⟨.call :: g.opened, .loose⟩
      | .loop => ⟨.rounds :: g.opened, .plain⟩
      | _ => ⟨.group :: g.opened, .plain⟩
  | .symbol .lbracket =>
      match g.mode with
      | .each => ⟨.array :: g.opened, .loose⟩
      | .source => ⟨.key true :: g.opened, .plain⟩
      | _ => ⟨.key false :: g.opened, .plain⟩
  | .symbol .lbrace => ⟨.object :: g.opened, .loose⟩
  | .symbol .rparen | .symbol .rbracket | .symbol .rbrace => closed g.opened
  | _ => ⟨g.opened, .plain⟩

/-- Whether line breaks may stand in the gap, in front of a token. -/
def free (g : Gap) (k : TokenKind) : Bool :=
  g.mode = .loose || match k with
    | .keyword .elseKw | .symbol .comma | .symbol .rbrace => true
    | .symbol .rparen => g.opened.head? = some .call
    | .symbol .rbracket => g.opened.head? = some .array
    | .symbol .dot | .symbol .lbracket => false
    | _ => g.mode = .source

/-- The gap behind several tokens. -/
def afterAll (g : Gap) (ts : List Token) : Gap := ts.foldl (fun g t => g.after t.kind) g

/-- The gap behind a token and more tokens. -/
@[simp] theorem afterAll_cons (g : Gap) (t : Token) (ts : List Token) :
    g.afterAll (t :: ts) = (g.after t.kind).afterAll ts := rfl

/-- The gap behind tokens, one after the other. -/
@[simp] theorem afterAll_append (g : Gap) (ts us : List Token) :
    g.afterAll (ts ++ us) = (g.afterAll ts).afterAll us := List.foldl_append

end Gap

/-- The same tokens, with line breaks in gaps where they are free. -/
inductive Spread : Gap → List Token → List Token → Prop
  | nil {g : Gap} : Spread g [] []
  | cons {g : Gap} {t : Token} {nl ts us : List Token} :
      Newlines nl → (nl = [] ∨ g.free t.kind = true) → Spread (g.after t.kind) ts us →
      Spread g (t :: ts) (nl ++ t :: us)

namespace Spread

variable {g : Gap} {t : Token} {ts us vs nl : List Token} {o : List Bracket}

/-- The first token has line breaks in front of it, if any. -/
theorem uncons (h : Spread g (t :: ts) us) :
    ∃ nl vs, us = nl ++ t :: vs ∧ Newlines nl ∧ (nl = [] ∨ g.free t.kind = true) ∧
      Spread (g.after t.kind) ts vs := by
  cases h with
  | cons hnl hfree hrest => exact ⟨_, _, rfl, hnl, hfree, hrest⟩

/-- Where the gap is not free, it has none. -/
theorem tight (h : Spread g (t :: ts) us) (hfree : g.free t.kind = false) :
    ∃ vs, us = t :: vs ∧ Spread (g.after t.kind) ts vs := by
  obtain ⟨nl, vs, rfl, -, hor, hrest⟩ := h.uncons
  obtain rfl : nl = [] := hor.resolve_right (by simp [hfree])
  exact ⟨vs, rfl, hrest⟩

/-- No tokens stay none. -/
theorem eq_nil (h : Spread g [] us) : us = [] := by
  cases h with
  | nil => rfl

/-- Tokens one after the other are spread one after the other. -/
theorem of_append (h : Spread g (ts ++ us) vs) :
    ∃ ts' us', vs = ts' ++ us' ∧ Spread g ts ts' ∧ Spread (g.afterAll ts) us us' := by
  induction ts generalizing g vs with
  | nil => exact ⟨[], vs, rfl, .nil, h⟩
  | cons t ts ih =>
      obtain ⟨nl, rest, rfl, hnl, hfree, hrest⟩ := h.uncons
      obtain ⟨ts', us', rfl, hts, hus⟩ := ih hrest
      exact ⟨nl ++ t :: ts', us', by simp, .cons hnl hfree hts, hus⟩

/-- The first token may stay where it is. -/
theorem same (h : Spread (g.after t.kind) ts us) : Spread g (t :: ts) (t :: us) :=
  .cons .nil (.inl rfl) h

/-- A line break may be put in front of it where that is free. -/
theorem newline {s : Span} (hfree : g.free t.kind = true) (h : Spread g (t :: ts) us) :
    Spread g (t :: ts) (⟨.newline, s⟩ :: us) := by
  obtain ⟨nl, vs, rfl, hnl, -, hrest⟩ := h.uncons
  exact .cons (List.forall_mem_cons.mpr ⟨rfl, hnl⟩) (.inr hfree) hrest

/-- No line breaks need be put in. -/
theorem self (g : Gap) (ts : List Token) : Spread g ts ts := by
  induction ts generalizing g with
  | nil => exact .nil
  | cons t ts ih => exact (ih _).same

/-- Line breaks stay line breaks. -/
theorem newlines (h : Spread g nl us) (hnl : Newlines nl) : Newlines us := by
  induction h with
  | nil => exact .nil
  | cons hnl' _ _ ih =>
      obtain ⟨ht, hts⟩ := List.forall_mem_cons.mp hnl
      exact hnl'.append (List.forall_mem_cons.mpr ⟨ht, ih hts⟩)

end Spread

/-! ## Gaps behind values -/

namespace Gap

/-- The gap is one behind a value, inside the brackets `o`; the value may be the path to what a loop
runs through. -/
inductive Behind (o : List Bracket) : Bool → Gap → Prop
  | plain : Behind o false ⟨o, .plain⟩
  | name : Behind o false ⟨o, .name⟩
  | source : Behind o true ⟨o, .source⟩

/-- A value is in the brackets that are open behind it. -/
theorem Behind.opened_eq {o : List Bracket} {source : Bool} {g : Gap} (h : Behind o source g) :
    g.opened = o := by
  cases h <;> rfl

/-- Behind `else`, line breaks are free. -/
theorem after_else (g : Gap) : g.after (.keyword .elseKw) = ⟨g.opened, .loose⟩ := rfl

/-- Behind a comma, line breaks are free. -/
theorem Behind.after_comma {o : List Bracket} {source : Bool} {g : Gap} (h : Behind o source g) :
    g.after (.symbol .comma) = ⟨o, .loose⟩ := by
  cases h <;> rfl

/-- Line breaks leave everything as it is. -/
theorem afterAll_newlines {nl : List Token} (h : Newlines nl) (g : Gap) : g.afterAll nl = g := by
  induction nl with
  | nil => rfl
  | cons t nl ih =>
      obtain ⟨ht, hnl⟩ := List.forall_mem_cons.mp h
      have hafter : g.after t.kind = g := by
        unfold TokenKind.isNewline at ht
        split at ht
        · rename_i hk
          rw [hk]
          rfl
        · cases ht
      rw [afterAll_cons, hafter, ih hnl]

end Gap

/-- Whether the sign is a closing bracket. -/
def Symbol.closes : Symbol → Bool
  | .rparen | .rbracket | .rbrace => true
  | _ => false

/-- Behind a closing bracket, what it closes tells. -/
theorem Gap.after_of_closes {close : Symbol} (h : close.closes = true) (g : Gap) :
    g.after (.symbol close) = Gap.closed g.opened := by
  cases close <;> first | rfl | cases h

/-- Whether the token is neither a bracket, a name, a comma, a dot, a line break nor one of the
words that bodies begin with. -/
def TokenKind.isInert : TokenKind → Bool
  | .text _ | .number _ | .bool _ | .combinator _ => true
  | .keyword w => w ∈ [.ifKw, .isKw, .inKw]
  | .symbol s => s ∉ [.lparen, .rparen, .lbrace, .rbrace, .lbracket, .rbracket, .comma, .dot]
  | _ => false

namespace Gap

variable {o : List Bracket} {k : TokenKind} {source : Bool} {g : Gap}

/-- Such a token leaves nothing to be told. -/
theorem after_of_isInert (g : Gap) (hk : k.isInert = true) : g.after k = ⟨g.opened, .plain⟩ := by
  cases k with
  | keyword w => cases w <;> first | rfl | cases hk
  | symbol s => cases s <;> first | rfl | cases hk
  | text | number | bool | combinator => rfl
  | ident | newline | eof => cases hk

/-- Behind a value, what it is does not matter for whether line breaks may stand there. -/
theorem Behind.free_eq (h : Behind o false g) (k : TokenKind) :
    g.free k = (⟨o, .plain⟩ : Gap).free k := by
  cases h with
  | plain => rfl
  | name => rfl

/-- Line breaks may not stand in front of such a token behind a value. -/
theorem free_of_isInert (hk : k.isInert = true) : (⟨o, .plain⟩ : Gap).free k = false := by
  cases k with
  | keyword w => cases w <;> first | rfl | cases hk
  | symbol s => cases s <;> first | rfl | cases hk
  | text | number | bool | combinator => rfl
  | ident | newline | eof => cases hk

/-- Most tokens are the same behind a value and where line breaks are free. -/
theorem after_loose (hk : k.isNewline = false) :
    (⟨o, .loose⟩ : Gap).after k = (⟨o, .plain⟩ : Gap).after k := by
  cases k with
  | keyword w => cases w <;> rfl
  | symbol s => cases s <;> rfl
  | newline => cases hk
  | text | number | bool | combinator | ident | eof => rfl

end Gap

/-! ## Tokens with a role are inert -/

/-- Arithmetic signs. -/
theorem TokenKind.isInert_of_arithOp? {k : TokenKind} {op : ArithOp} (h : k.arithOp? = some op) :
    k.isInert = true := by
  unfold arithOp? at h
  split at h <;> first | rfl | cases h

/-- Comparisons. -/
theorem TokenKind.isInert_of_compareOp? {k : TokenKind} {op : CompareOp}
    (h : k.compareOp? = some op) : k.isInert = true := by
  unfold compareOp? at h
  split at h <;> first | rfl | cases h

/-- Signs of assignments. -/
theorem TokenKind.isInert_of_assignOp? {k : TokenKind} {op : AssignOp} (h : k.assignOp? = some op) :
    k.isInert = true := by
  unfold assignOp? at h
  split at h <;> first | rfl | cases h

/-- Items of arrays. -/
theorem TokenKind.isInert_of_item? {k : TokenKind} {l : Literal} (h : k.item? = some l) :
    k.isInert = true := by
  unfold item? at h
  split at h <;> first | rfl | cases h

/-- Negative numbers. -/
theorem TokenKind.isInert_of_negative? {k : TokenKind} {x : Float} (h : k.negative? = some x) :
    k.isInert = true := by
  unfold negative? at h
  split at h <;> first | rfl | cases h

/-! ## What is derived behind a gap -/

/-- Behind the gap, the tokens derive the same when line breaks are put into free gaps, and the gap
behind them is one of those. -/
structure Carried {α : Type} (D : List Token → α → Prop) (P : Gap → Prop) (g : Gap)
    (ts : List Token) (a : α) : Prop where
  behind : P (g.afterAll ts)
  derives : ∀ us, Spread g ts us → D us a

section pieces

variable {α : Type} {p : List Token → α → Prop} {n : Nat} {o : List Bracket} {source : Bool} {g : Gap}
  {t : Token} {ts us vs nl : List Token} {a : α} {as : List α}

/-- Line breaks in front of what follows a free gap may be taken for the gap. -/
theorem Spread.of_loose (h : Spread ⟨o, .loose⟩ (t :: ts) us) (ht : t.kind.isNewline = false) :
    ∃ nl vs, us = nl ++ vs ∧ Newlines nl ∧ Spread ⟨o, .plain⟩ (t :: ts) vs := by
  obtain ⟨nl, vs, rfl, hnl, -, hrest⟩ := h.uncons
  rw [Gap.after_loose ht] at hrest
  exact ⟨nl, t :: vs, rfl, hnl, hrest.same⟩

namespace Carried

variable {β γ : Type} {D : List Token → α → Prop} {E : List Token → β → Prop}
  {F : List Token → γ → Prop} {P Q : Gap → Prop} {b : β} {c : γ}

/-- The same tokens in front of more gaps, under another rule. -/
theorem map (h : Carried D P g ts a) (hPQ : ∀ g, P g → Q g) (hDE : ∀ us, D us a → E us b) :
    Carried E Q g ts b :=
  ⟨hPQ _ h.behind, fun us hus => hDE us (h.derives us hus)⟩

/-- One token in front, in a gap that is not free. -/
theorem cons (ht : g.free t.kind = false) (h : Carried D P (g.after t.kind) ts a)
    (hDE : ∀ us, D us a → E (t :: us) b) : Carried E P g (t :: ts) b := by
  refine ⟨h.behind, fun us hus => ?_⟩
  obtain ⟨vs, rfl, hvs⟩ := hus.tight ht
  exact hDE vs (h.derives vs hvs)

/-- One token alone. -/
theorem one (ht : g.free t.kind = false) (hbehind : P (g.after t.kind)) (hD : D [t] a) :
    Carried D P g [t] a := by
  refine ⟨hbehind, fun us hus => ?_⟩
  obtain ⟨vs, rfl, hvs⟩ := hus.tight ht
  rw [hvs.eq_nil]
  exact hD

/-- One piece behind the other. -/
theorem append (h : Carried D P g ts a) (k : ∀ g, P g → Carried E Q g us b)
    (hF : ∀ ts us, D ts a → E us b → F (ts ++ us) c) : Carried F Q g (ts ++ us) c := by
  have hk := k _ h.behind
  refine ⟨by rw [Gap.afterAll_append]; exact hk.behind, fun vs hvs => ?_⟩
  obtain ⟨ts, us, rfl, hts, hus⟩ := hvs.of_append
  exact hF ts us (h.derives ts hts) (hk.derives us hus)

end Carried

/-- Pieces one after the other are carried if each of them is. -/
theorem Derives.Star.carried {P : Gap → Prop}
    (hp : ∀ us a g, us.length ≤ n → p us a → P g → Carried p P g us a)
    (h : Star p ts as) (hts : ts.length ≤ n) (hg : P g) : Carried (Star p) P g ts as := by
  induction h generalizing g with
  | nil =>
      refine ⟨hg, fun us hus => ?_⟩
      rw [hus.eq_nil]
      exact .nil
  | cons ha _ ih =>
      rw [List.length_append] at hts
      exact (hp _ _ g (by omega) ha hg).append (fun g hg => ih (by omega) hg) fun _ _ => .cons

/-- Line breaks behind items may be taken for those of the last one. -/
theorem Derives.Items.append_newlines (h : Items p ts as) (hnl : Newlines nl) :
    Items p (ts ++ nl) as := by
  induction h with
  | last ha hnl' =>
      rw [List.append_assoc]
      exact .last ha (hnl'.append hnl)
  | @more ts nl₁ nl₂ us s a as ha hnl₁ hnl₂ _ ih =>
      have hmore := Items.more (s := s) ha hnl₁ hnl₂ ih
      simpa using hmore

/-- Line breaks in front of a closing bracket may be taken for what stands between the brackets. -/
theorem Derives.Delimited.append_newlines {trailing : Bool} (h : Delimited trailing p ts as)
    (hnl : Newlines nl) : Delimited trailing p (ts ++ nl) as := by
  cases h with
  | empty hts => exact .empty (hts.append hnl)
  | items hnl' hitems =>
      rw [List.append_assoc]
      exact .items hnl' (hitems.append_newlines hnl)
  | @comma _ _ _ s _ htrailing hnl₁ hitems hnl₂ =>
      have hcomma := Delimited.comma (s := s) htrailing hnl₁ hitems (hnl₂.append hnl)
      simpa using hcomma

section items

variable (hhead : ∀ us a, p us a → ∃ t vs, us = t :: vs ∧ t.kind.isNewline = false)
  (hp : ∀ us a o, us.length ≤ n → p us a → Carried p (Gap.Behind o false) ⟨o, .plain⟩ us a)
include hhead hp

/-- What follows a free gap is carried, but for line breaks in front. -/
theorem Carried.of_loose (ha : p ts a) (hts : ts.length ≤ n) (h : Spread ⟨o, .loose⟩ (ts ++ us) vs) :
    ∃ nl ts' us', vs = nl ++ (ts' ++ us') ∧ Newlines nl ∧ p ts' a ∧
      ((⟨o, .loose⟩ : Gap).afterAll ts).Behind o false ∧
        Spread ((⟨o, .loose⟩ : Gap).afterAll ts) us us' := by
  obtain ⟨t, rest, rfl, ht⟩ := hhead ts a ha
  obtain ⟨nl, vs, rfl, hnl, hvs⟩ := Spread.of_loose h ht
  have hvs : Spread _ ((t :: rest) ++ us) vs := hvs
  obtain ⟨ts', us', rfl, hts', hus'⟩ := hvs.of_append
  obtain ⟨hbehind, hderives⟩ := hp _ a o hts ha
  have hafter : (⟨o, .loose⟩ : Gap).afterAll (t :: rest) =
      (⟨o, .plain⟩ : Gap).afterAll (t :: rest) := by
    rw [Gap.afterAll_cons, Gap.afterAll_cons, Gap.after_loose ht]
  rw [hafter]
  exact ⟨nl, ts', us', rfl, hnl, hderives ts' hts', hbehind, hus'⟩

/-- Items are carried, but for line breaks in front. -/
theorem Derives.Items.carried (h : Items p ts as) (hts : ts.length ≤ n)
    (hus : Spread ⟨o, .loose⟩ ts us) :
    ((⟨o, .loose⟩ : Gap).afterAll ts).Behind o false ∧
      ∃ nl vs, us = nl ++ vs ∧ Newlines nl ∧ Items p vs as := by
  induction h generalizing us with
  | last ha hnl =>
      rw [List.length_append] at hts
      obtain ⟨nl₁, ts', nl₂, rfl, hnl₁, ha', hbehind, hrest⟩ :=
        Carried.of_loose hhead hp ha (by omega) hus
      rw [Gap.afterAll_append, Gap.afterAll_newlines hnl]
      exact ⟨hbehind, nl₁, _, rfl, hnl₁, .last ha' (hrest.newlines hnl)⟩
  | @more ts nl nl' vs s a as ha hnl hnl' _ ih =>
      rw [List.length_append, List.length_append, List.length_cons, List.length_append] at hts
      obtain ⟨nl₁, ts', rest, rfl, hnl₁, ha', hbehind, hrest⟩ :=
        Carried.of_loose hhead hp ha (by omega) hus
      obtain ⟨nl₂, rest, rfl, hnl₂, hrest⟩ := hrest.of_append
      rw [Gap.afterAll_newlines hnl] at hrest
      obtain ⟨nl₃, rest, rfl, hnl₃, -, hrest⟩ := hrest.uncons
      rw [hbehind.after_comma] at hrest
      obtain ⟨nl₄, rest, rfl, hnl₄, hrest⟩ := hrest.of_append
      rw [Gap.afterAll_newlines hnl'] at hrest
      obtain ⟨hbehind', nl₅, vs', rfl, hnl₅, hitems⟩ := ih (by omega) hrest
      refine ⟨?_, nl₁, _, rfl, hnl₁, ?_⟩
      · rwa [Gap.afterAll_append, Gap.afterAll_append, Gap.afterAll_cons, Gap.afterAll_append,
          Gap.afterAll_newlines hnl, Gap.afterAll_newlines hnl', hbehind.after_comma]
      · have hmore := Items.more (s := s) ha' ((hnl₂.newlines hnl).append hnl₃)
          ((hnl₄.newlines hnl').append hnl₅) hitems
        simpa using hmore

/-- So is what stands between brackets. -/
theorem Derives.Delimited.carried {trailing : Bool} {b : Bracket} (h : Delimited trailing p ts as)
    (hts : ts.length ≤ n) (hus : Spread ⟨b :: o, .loose⟩ ts us) :
    ((⟨b :: o, .loose⟩ : Gap).afterAll ts).opened = b :: o ∧ Delimited trailing p us as := by
  cases h with
  | empty hnl =>
      rw [Gap.afterAll_newlines hnl]
      exact ⟨rfl, .empty (hus.newlines hnl)⟩
  | items hnl hitems =>
      rw [List.length_append] at hts
      obtain ⟨nl₁, rest, rfl, hnl₁, hrest⟩ := hus.of_append
      rw [Gap.afterAll_newlines hnl] at hrest
      obtain ⟨hbehind, nl₂, vs, rfl, hnl₂, hitems'⟩ := Items.carried hhead hp hitems (by omega) hrest
      rw [Gap.afterAll_append, Gap.afterAll_newlines hnl]
      exact ⟨hbehind.opened_eq, .append (hnl₁.newlines hnl) (.append hnl₂ (.of_items hitems'))⟩
  | @comma nl ts nl' s as htrailing hnl hitems hnl' =>
      rw [List.length_append, List.length_append] at hts
      obtain ⟨nl₁, rest, rfl, hnl₁, hrest⟩ := hus.of_append
      rw [Gap.afterAll_newlines hnl] at hrest
      obtain ⟨mid, behind, rfl, hmid, hbehind⟩ := hrest.of_append
      obtain ⟨hafter, nl₂, vs, rfl, hnl₂, hitems'⟩ := Items.carried hhead hp hitems (by omega) hmid
      obtain ⟨nl₃, nl₄, rfl, hnl₃, -, hnl₄⟩ := hbehind.uncons
      rw [hafter.after_comma] at hnl₄
      refine ⟨?_, ?_⟩
      · rw [Gap.afterAll_append, Gap.afterAll_append, Gap.afterAll_cons, Gap.afterAll_newlines hnl,
          hafter.after_comma, Gap.afterAll_newlines hnl']
      · have hitems' := hitems'.append_newlines hnl₃
        have hcomma := Delimited.comma (s := s) htrailing ((hnl₁.newlines hnl).append hnl₂) hitems'
          (hnl₄.newlines hnl')
        simpa using hcomma

/-- So are brackets, line breaks in front of the closing one being free. -/
theorem Derives.Delimited.carried_closed {trailing : Bool} (b : Bracket) (close : Symbol) (s : Span)
    (h : Delimited trailing p ts as) (hts : ts.length ≤ n) (hclose : close.closes = true) :
    Carried (Closed close (Delimited trailing p)) (· = ⟨o, b.mode⟩) ⟨b :: o, .loose⟩
      (ts ++ [⟨.symbol close, s⟩]) as := by
  refine ⟨?_, fun us hus => ?_⟩
  · obtain ⟨hopened, -⟩ := h.carried hhead hp hts (Spread.self _ _)
    rw [Gap.afterAll_append, Gap.afterAll_cons, Gap.after_of_closes hclose, hopened]
    rfl
  · obtain ⟨us, vs, rfl, hinner, hvs⟩ := hus.of_append
    obtain ⟨nl, rest, rfl, hnl, -, hrest⟩ := hvs.uncons
    obtain rfl := hrest.eq_nil
    obtain ⟨-, hinside⟩ := h.carried hhead hp hts hinner
    exact ⟨us ++ nl, s, hinside.append_newlines hnl, by simp⟩

end items

/-- Other brackets are carried with what stands between them. -/
theorem Carried.closed {D : List Token → α → Prop} {b : Bracket} (close : Symbol) (s : Span)
    (h : Carried D (Gap.Behind (b :: o) false) ⟨b :: o, .plain⟩ ts a) (hclose : close.closes = true)
    (htight : (⟨b :: o, .plain⟩ : Gap).free (.symbol close) = false) :
    Carried (Closed close D) (· = ⟨o, b.mode⟩) ⟨b :: o, .plain⟩ (ts ++ [⟨.symbol close, s⟩]) a := by
  refine h.append (E := One ⟨.symbol close, s⟩) (b := ()) (fun g hg => ?_) fun us vs hus hvs => ?_
  · refine .one ((hg.free_eq _).trans htight) ?_ rfl
    rw [Gap.after_of_closes hclose, hg.opened_eq]
    rfl
  · exact ⟨us, s, hus, congrArg (us ++ ·) hvs⟩

end pieces

/-! ## Expressions -/

section expressions

/-- Expressions of fewer than `n` tokens are carried. -/
def CarriedBelow (n : Nat) : Prop :=
  ∀ ts e o, ts.length < n → Boolean ts e → Carried Boolean (Gap.Behind o false) ⟨o, .plain⟩ ts e

variable {n : Nat} {o : List Bracket} {source : Bool} {g : Gap} {ts : List Token} {e : Expr}

/-- A step of a path belongs to what is in front of it. -/
theorem Derives.PathStep.carried (hin : CarriedBelow n) {step : Step} (h : PathStep ts step)
    (hts : ts.length ≤ n) (hg : g.Behind o source) :
    Carried PathStep (Gap.Behind o source) g ts step := by
  cases h with
  | field =>
      cases hg with
      | plain => exact .cons rfl (.one rfl .name .field) fun us hus => hus
      | name => exact .cons rfl (.one rfl .name .field) fun us hus => hus
      | source => exact .cons rfl (.one rfl .source .field) fun us hus => hus
  | @index s t ts e he =>
      have hopen : g.free (.symbol .lbracket) = false ∧
          g.after (.symbol .lbracket) = ⟨.key source :: o, .plain⟩ := by
        cases hg with
        | plain | name | source => exact ⟨rfl, rfl⟩
      have hmode : (⟨o, (Bracket.key source).mode⟩ : Gap).Behind o source := by
        cases source with
        | true => exact .source
        | false => exact .plain
      have hinner := hin ts e (.key source :: o) (by simp at hts; omega) he
      have hclosed := (hinner.closed .rbracket t rfl rfl).map (Q := Gap.Behind o source)
        (fun g hg => hg ▸ hmode) fun us hus => hus
      rw [← hopen.2] at hclosed
      refine hclosed.cons hopen.1 ?_
      rintro _ ⟨us, t, hus, rfl⟩
      exact .index hus

/-- A place ends behind the path, be it what a loop runs through or not. -/
theorem Derives.Place.carried (hin : CarriedBelow n) {r : Reference} (h : Place ts r)
    (hts : ts.length ≤ n) :
    Carried Place (Gap.Behind o source) ⟨o, if source then .each else .plain⟩ ts r := by
  obtain ⟨root, s, ts, path, rfl, rfl, hpath⟩ := h.exists_path
  have hsteps : ∀ g : Gap, g.Behind o source →
      Carried (Star PathStep) (Gap.Behind o source) g ts path :=
    fun g hg => hpath.carried (fun us a g hus ha hg => ha.carried hin hus hg)
      (Nat.le_of_succ_le hts) hg
  cases source with
  | true => exact .cons rfl (hsteps _ .source) fun us hus => .mk hus
  | false => exact .cons rfl (hsteps _ .name) fun us hus => .mk hus

/-- Brackets behind which nothing is to be told end a value. -/
theorem Carried.behind_plain {α : Type} {D : List Token → α → Prop} {b : Bracket} {a : α}
    (h : Carried D (· = ⟨o, b.mode⟩) g ts a) (hb : b.mode = .plain) :
    Carried D (Gap.Behind o false) g ts a := by
  rw [hb] at h
  exact h.map (fun g hg => hg ▸ .plain) fun us hus => hus

/-- In a call, line breaks are free where arguments begin and end. -/
theorem Derives.Call.carried (hin : CarriedBelow n) {f : String} {args : List Expr}
    (h : Call ts (f, args)) (hts : ts.length ≤ n) :
    Carried Call (Gap.Behind o false) ⟨o, .plain⟩ ts (f, args) := by
  cases h with
  | @mk _ s t u ts _ hargs =>
      simp only [List.length_cons, List.length_append, List.length_nil] at hts
      have hclosed := hargs.carried_closed (o := o) (fun _ _ => Boolean.isNewline_head)
        (fun us a o hus ha => hin us a o (by omega) ha) .call .rparen u (Nat.le_refl _) rfl
      refine .cons rfl (.cons (E := fun us args => Call (⟨.ident f, s⟩ :: us) (f, args)) rfl
        (hclosed.behind_plain rfl) ?_) fun us hus => hus
      rintro _ ⟨us, u, hus, rfl⟩
      exact .mk hus

/-- An entry of an object. -/
theorem Derives.Entry.carried (hin : CarriedBelow n) {entry : String × Expr} (h : Entry ts entry)
    (hts : ts.length ≤ n) : Carried Entry (Gap.Behind o false) ⟨o, .plain⟩ ts entry := by
  cases h with
  | @mk name s t ts e he =>
      have hvalue := hin ts e o (by simp at hts; omega) he
      exact .cons rfl (.cons (E := fun us e => Entry (⟨.text name, s⟩ :: us) (name, e)) rfl hvalue
        fun us hus => .mk hus) fun us hus => hus

/-- A primary. -/
theorem Derives.Primary.carried (hin : CarriedBelow n) (h : Primary ts e) (hts : ts.length ≤ n) :
    Carried Primary (Gap.Behind o false) ⟨o, .plain⟩ ts e := by
  cases h with
  | text => exact .one rfl .plain .text
  | number => exact .one rfl .plain .number
  | bool => exact .one rfl .plain .bool
  | call hcall => exact (hcall.carried hin hts).map (fun g hg => hg) fun us hus => .call hus
  | place hplace => exact (hplace.carried hin hts).map (fun g hg => hg) fun us hus => .place hus
  | @object s t ts entries hentries =>
      simp only [List.length_cons, List.length_append, List.length_nil] at hts
      have hclosed := hentries.carried_closed (o := o) (fun _ _ => Entry.head)
        (fun us a o hus ha => ha.carried hin (by omega)) .object .rbrace t (Nat.le_refl _) rfl
      refine .cons rfl (hclosed.behind_plain rfl) ?_
      rintro _ ⟨us, u, hus, rfl⟩
      exact .object hus

/-- A token that tells nothing stands directly behind a value. -/
theorem Carried.inert {α β : Type} {D : List Token → α → Prop} {E : List Token → β → Prop}
    {P : Gap → Prop} {t : Token} {a : α} {b : β} (ht : t.kind.isInert = true) (hg : g.Behind o false)
    (h : Carried D P ⟨o, .plain⟩ ts a) (hDE : ∀ us, D us a → E (t :: us) b) :
    Carried E P g (t :: ts) b := by
  refine .cons ((hg.free_eq _).trans (Gap.free_of_isInert ht)) ?_ hDE
  rwa [Gap.after_of_isInert _ ht, hg.opened_eq]

/-- A link of an arithmetic chain. -/
theorem Derives.Link.carried (hin : CarriedBelow n) {link : ArithOp × Expr} (h : Link ts link)
    (hts : ts.length ≤ n) (hg : g.Behind o false) : Carried Link (Gap.Behind o false) g ts link := by
  cases h with
  | @op t ts op e hop he =>
      exact .inert (TokenKind.isInert_of_arithOp? hop) hg (he.carried hin (Nat.le_of_succ_le hts))
        fun us hus => .op hop hus
  | @negative t x hx =>
      have ht := TokenKind.isInert_of_negative? hx
      refine .one ((hg.free_eq _).trans (Gap.free_of_isInert ht)) ?_ (.negative hx)
      rw [Gap.after_of_isInert _ ht, hg.opened_eq]
      exact .plain

/-- An arithmetic chain. -/
theorem Derives.Arith.carried (hin : CarriedBelow n) (h : Arith ts e) (hts : ts.length ≤ n) :
    Carried Arith (Gap.Behind o false) ⟨o, .plain⟩ ts e := by
  cases h with
  | @mk ts us first links hfirst hlinks =>
      rw [List.length_append] at hts
      exact (hfirst.carried hin (by omega)).append
        (fun g hg => hlinks.carried (fun us a g hus ha hg => ha.carried hin hus hg) (by omega) hg)
        fun _ _ => .mk

/-- A term. -/
theorem Derives.Term.carried (hin : CarriedBelow n) (h : Term ts e) (hts : ts.length ≤ n) :
    Carried Term (Gap.Behind o false) ⟨o, .plain⟩ ts e := by
  cases h with
  | @parens s t ts e he =>
      simp only [List.length_cons, List.length_append, List.length_nil] at hts
      have hclosed := (hin ts e (.group :: o) (by omega) he).closed .rparen t rfl rfl
      refine .cons rfl (hclosed.behind_plain rfl) ?_
      rintro _ ⟨us, u, hus, rfl⟩
      exact .parens hus
  | value h => exact (h.carried hin hts).map (fun g hg => hg) fun us hus => .value hus
  | @compare ts us t op l r hl hop hr =>
      rw [List.length_append, List.length_cons] at hts
      have hright : ∀ g : Gap, g.Behind o false →
          Carried (fun us r => ∃ vs, us = t :: vs ∧ Arith vs r) (Gap.Behind o false) g (t :: us) r :=
        fun g hg => .inert (TokenKind.isInert_of_compareOp? hop) hg (hr.carried hin (by omega))
          fun vs hvs => ⟨vs, rfl, hvs⟩
      refine (hl.carried hin (by omega)).append hright ?_
      rintro us _ hus ⟨vs, rfl, hvs⟩
      exact .compare hus hop hvs

/-- A combinator and a term. -/
theorem Derives.Joined.carried (hin : CarriedBelow n) {link : Combinator × Expr} (h : Joined ts link)
    (hts : ts.length ≤ n) (hg : g.Behind o false) : Carried Joined (Gap.Behind o false) g ts link := by
  cases h with
  | mk hterm =>
      exact .inert rfl hg (hterm.carried hin (Nat.le_of_succ_le hts)) fun us hus => .mk hus

/-- The same for any number of tokens. -/
theorem carriedBelow (n : Nat) : CarriedBelow n := by
  induction n with
  | zero => nofun
  | succ n ih =>
      intro ts e o hts h
      cases h with
      | @mk ts us first rest hfirst hrest =>
          rw [List.length_append] at hts
          exact (hfirst.carried ih (by omega)).append
            (fun g hg => hrest.carried (fun us a g hus ha hg => ha.carried ih hus hg) (by omega) hg)
            fun _ _ => .mk

/-- Line breaks in free gaps leave an expression as it is, and none are free behind it. -/
theorem carried_boolean (h : Boolean ts e) :
    Carried Boolean (Gap.Behind o false) ⟨o, .plain⟩ ts e :=
  carriedBelow _ ts e o (Nat.lt_succ_self _) h

end expressions

end Edict
