import Edict.Proofs.Grammar.Reading

/-!
# Terms joined by combinators

A condition is read by climbing: `joinFrom` goes on with what has been read so far, through the
combinators that bind at least as tightly as a level, and for the right operand of each of them it
calls itself with a higher level.

What it does is said in terms of the combinators and terms that stand at its place (`Linked`), with
whatever its reader of terms takes for one.  A call takes those up to the first combinator that
binds less tightly than its level, and joins them as the grammar does (`joinFrom_linked`,
`joinFrom_of_linked`).  So a condition takes all of them (`condition_gives_iff`).

## Main definitions

* `Linked`, `Unlinked`: combinators with terms behind them stand in front of a rest; no combinator
  stands there.
* `Grammar.atLeast`: a combinator binds at least as tightly as a level.

## Main statements

* `Grammar.joinFrom_linked`, `Grammar.joinFrom_of_linked`: what a call takes, and that it takes it,
  at every level.
* `Grammar.condition_gives_iff`: what a condition is read as, with any reader of terms.
-/

namespace Edict

open Grammar

/-- Combinators, with a term behind each as `reads` finds terms, from the front of one list to the
front of another. -/
inductive Linked (reads : List Token → Expr → List Token → Prop) :
    List Token → List (Combinator × Expr) → List Token → Prop
  | nil {ts : List Token} : Linked reads ts [] ts
  | cons {op : Combinator} {s : Span} {ts mid rest : List Token} {e : Expr}
      {links : List (Combinator × Expr)} : reads ts e mid → Linked reads mid links rest →
      Linked reads (⟨.combinator op, s⟩ :: ts) ((op, e) :: links) rest

namespace Linked

variable {reads : List Token → Expr → List Token → Prop} {ts mid rest : List Token}
  {links links' : List (Combinator × Expr)}

/-- Links behind links. -/
theorem append (h : Linked reads ts links mid) (k : Linked reads mid links' rest) :
    Linked reads ts (links ++ links') rest := by
  induction h with
  | nil => exact k
  | cons hreads _ ih => exact .cons hreads (ih k)

/-- The same links as another reader finds them. -/
theorem mono {reads' : List Token → Expr → List Token → Prop} (h : Linked reads ts links rest)
    (hreads : ∀ ts e rest, reads ts e rest → reads' ts e rest) : Linked reads' ts links rest := by
  induction h with
  | nil => exact .nil
  | cons hterm _ ih => exact .cons (hreads _ _ _ hterm) ih

/-- The first token of the links is a combinator, if there are any. -/
theorem eq_cons {l : Combinator × Expr} (h : Linked reads ts (l :: links) rest) :
    ∃ s us, ts = ⟨.combinator l.1, s⟩ :: us := by
  cases h with
  | cons => exact ⟨_, _, rfl⟩

end Linked

/-- No combinator stands in front. -/
def Unlinked (ts : List Token) : Prop := (Token.peek ts).kind.combinator? = none

/-- A combinator stands in front or none does. -/
theorem unlinked_or (ts : List Token) :
    Unlinked ts ∨ ∃ op s us, ts = ⟨.combinator op, s⟩ :: us := by
  rcases ts with _ | ⟨⟨k, s⟩, us⟩
  · exact .inl rfl
  · cases k <;> first | exact .inl rfl | exact .inr ⟨_, _, _, rfl⟩

/-- What a list with no combinator in front is not. -/
theorem unlinked_iff {ts : List Token} :
    Unlinked ts ↔ ∀ op s us, ts ≠ ⟨.combinator op, s⟩ :: us := by
  constructor
  · rintro h op s us rfl
    cases h
  · intro h
    refine (unlinked_or ts).resolve_right ?_
    rintro ⟨op, s, us, hts⟩
    exact h op s us hts

/-! ## Levels -/

/-- Combinators that bind at least as tightly as `level`. -/
def Grammar.atLeast (level : Nat) (link : Combinator × Expr) : Bool :=
  decide (level ≤ link.1.precedence)

namespace Grammar

/-- What binds more tightly than a level binds more tightly than those below. -/
theorem atLeast_mono {m n : Nat} (h : m ≤ n) {l : Combinator × Expr} (hl : atLeast n l = true) :
    atLeast m l = true :=
  decide_eq_true (Nat.le_trans h (of_decide_eq_true hl))

/-- Cutting a list twice, first where `q` ends and then where the weaker `p` ends. -/
theorem takeWhile_dropWhile_of_imp {α : Type} {p q : α → Bool} (hqp : ∀ a, q a = true → p a = true)
    (l : List α) : l.takeWhile p = l.takeWhile q ++ (l.dropWhile q).takeWhile p ∧
      l.dropWhile p = (l.dropWhile q).dropWhile p := by
  have hall : ∀ a ∈ l.takeWhile q, p a = true := fun a ha =>
    hqp a (List.all_eq_true.mp List.all_takeWhile a ha)
  have hl : l.takeWhile q ++ l.dropWhile q = l := List.takeWhile_append_dropWhile
  constructor
  · conv => lhs; rw [← hl]
    exact List.takeWhile_append_of_pos hall
  · conv => lhs; rw [← hl]
    exact List.dropWhile_append_of_pos hall

/-- What a combinator that binds at least as tightly as `level` has behind it, as far as `level`
goes, is its right operand and what goes on with the group. -/
theorem joinFrom_takeWhile {level : Nat} {op : Combinator} (hop : level ≤ op.precedence)
    (left first : Expr) (more : List (Combinator × Expr)) :
    Expr.joinFrom none left ((op, first) :: more.takeWhile (atLeast level)) =
      Expr.joinFrom none
        (.joined left op (Expr.joinFrom none first (more.takeWhile (atLeast (op.precedence + 1)))))
        ((more.dropWhile (atLeast (op.precedence + 1))).takeWhile (atLeast level)) := by
  have himp : ∀ l, atLeast (op.precedence + 1) l = true → atLeast level l = true :=
    fun _ => atLeast_mono (Nat.le_succ_of_le hop)
  rw [(takeWhile_dropWhile_of_imp himp more).1, Expr.joinFrom_split]
  · intro l hl
    have : atLeast (op.precedence + 1) l = true := List.all_eq_true.mp List.all_takeWhile l hl
    exact of_decide_eq_true this
  · intro l hl
    rw [List.head?_takeWhile] at hl
    have hhead := List.head?_dropWhile_not (atLeast (op.precedence + 1)) more
    rw [Option.eq_some_of_filter_eq_some hl] at hhead
    have : ¬ op.precedence + 1 ≤ l.1.precedence := of_decide_eq_false hhead
    omega

/-- What `level` leaves is left behind the right operand already. -/
theorem dropWhile_atLeast {level : Nat} {op : Combinator} (hop : level ≤ op.precedence)
    (more : List (Combinator × Expr)) :
    more.dropWhile (atLeast level) =
      (more.dropWhile (atLeast (op.precedence + 1))).dropWhile (atLeast level) :=
  (takeWhile_dropWhile_of_imp (fun _ => atLeast_mono (Nat.le_succ_of_le hop)) more).2

/-- The lowest level leaves nothing. -/
theorem atLeast_one (links : List (Combinator × Expr)) :
    links.takeWhile (atLeast 1) = links ∧ links.dropWhile (atLeast 1) = [] := by
  have hall : ∀ l ∈ links, atLeast 1 l = true := by
    rintro ⟨op, _⟩ _
    cases op <;> rfl
  constructor
  · simpa using @List.takeWhile_append_of_pos _ _ links [] hall
  · simpa using @List.dropWhile_append_of_pos _ _ links [] hall

/-! ## Climbing -/

variable {limit : Nat} {inner : Nested limit} {ts rest : List Token}

/-- The term that is read at the front of the list. -/
def Nested.ReadsTerm (inner : Nested limit) (ts : List Token) (e : Expr) (rest : List Token) :
    Prop :=
  ∃ h, Gives (term inner ts h) e rest

/-- No operand is missing where a term is read. -/
theorem Nested.ReadsTerm.endsOperand {e : Expr} (h : inner.ReadsTerm ts e rest) :
    endsOperand ts = false := by
  obtain ⟨hlen, hlt, hterm⟩ := h
  have hstarts : (Token.peek ts).kind.startsTerm = true := by
    refine Bool.not_eq_false _ |>.mp fun hno => ?_
    unfold term at hterm
    split at hterm
    · cases hno
    · cases hterm
    · obtain ⟨hprimary, -⟩ := Bool.or_eq_false_iff.mp hno
      rw [arith_eq_error hprimary] at hterm
      cases hterm
  obtain ⟨-, hrparen, -, hop, hthen, hcomma, hend⟩ := not_startsTerm hstarts
  unfold Grammar.endsOperand
  split
  · exact absurd ‹_› hthen
  · exact absurd ‹_› hrparen
  · exact absurd ‹_› hcomma
  · rename_i hk
    rw [hk] at hop
    cases hop
  · exact hend

/-- A condition stops only in front of a combinator that binds less tightly than `level`. -/
theorem joinFrom_ends (level : Nat) (left : Expr) (ts : List Token) (h : ts.length ≤ limit) :
    ∀ p, joinFrom inner level left ts h = .ok p →
      ∀ op s rest, p.rest = ⟨.combinator op, s⟩ :: rest → op.precedence < level := by
  fun_induction joinFrom inner level left ts h with
  | case1 level left op s rest h hlt =>
      rintro p hp op' s' rest' hrest
      cases hp
      cases hrest
      exact hlt
  | case2 =>
      intro p hp
      cases hp
  | case3 level left op s rest h hle hend _ ihright ihwhole =>
      intro p hp
      obtain ⟨first, hfirst, hp⟩ := ok_of_bind hp
      obtain ⟨right, hright, hp⟩ := ok_of_bind hp
      obtain ⟨whole, hwhole, hp⟩ := ok_of_bind hp
      cases hp
      exact ihwhole first right whole hwhole
  | case4 level left ts h hne =>
      intro p hp
      cases hp
      rintro op s rest rfl
      exact absurd HEq.rfl (hne op s rest h rfl)

/-- What a condition has gone on with are links that bind at least as tightly as `level`, joined as
the grammar joins them. -/
theorem joinFrom_linked (level : Nat) (left : Expr) (ts : List Token) (h : ts.length ≤ limit) :
    ∀ p, joinFrom inner level left ts h = .ok p →
      ∃ links, Linked inner.ReadsTerm ts links p.rest ∧ (∀ l ∈ links, level ≤ l.1.precedence) ∧
        p.value = Expr.joinFrom none left links := by
  fun_induction joinFrom inner level left ts h with
  | case1 =>
      intro p hp
      cases hp
      exact ⟨[], .nil, by simp, rfl⟩
  | case2 =>
      intro p hp
      cases hp
  | case3 level left op s rest h hle hend _ ihright ihwhole =>
      intro p hp
      obtain ⟨first, hfirst, hp⟩ := ok_of_bind hp
      obtain ⟨right, hright, hp⟩ := ok_of_bind hp
      obtain ⟨whole, hwhole, hp⟩ := ok_of_bind hp
      cases hp
      obtain ⟨tighter, htighter, hlevel, hvalue⟩ := ihright first right hright
      obtain ⟨more, hmore, hlevel', hvalue'⟩ := ihwhole first right whole hwhole
      -- the first combinator behind the right operand binds no more tightly
      have hhead : ∀ l ∈ more.head?, l.1.precedence ≤ op.precedence := by
        rcases more with _ | ⟨l, more⟩
        · simp
        · rintro _ ⟨⟩
          obtain ⟨s', us, hus⟩ := hmore.eq_cons
          exact Nat.le_of_lt_succ (joinFrom_ends _ _ _ _ right hright _ _ _ hus)
      refine ⟨(op, first.value) :: (tighter ++ more), ?_, ?_, ?_⟩
      · exact .cons ⟨_, gives_of_eq_ok hfirst⟩ (htighter.append hmore)
      · have hop : level ≤ op.precedence := Nat.le_of_not_lt hle
        refine List.forall_mem_cons.mpr ⟨hop, List.forall_mem_append.mpr ⟨?_, hlevel'⟩⟩
        exact fun l hl => Nat.le_trans hop (Nat.le_of_succ_le (hlevel l hl))
      · rw [Expr.joinFrom_split left op first.value hlevel hhead, ← hvalue]
        exact hvalue'
  | case4 =>
      intro p hp
      cases hp
      exact ⟨[], .nil, by simp, rfl⟩

/-- A condition goes on through all links that bind at least as tightly as `level`, and leaves the
others. -/
theorem joinFrom_of_linked (hrest : Unlinked rest) (level : Nat) (left : Expr) (ts : List Token)
    (h : ts.length ≤ limit) :
    ∀ links, Linked inner.ReadsTerm ts links rest →
      ∃ mid, Linked inner.ReadsTerm mid (links.dropWhile (atLeast level)) rest ∧
        Gives (joinFrom inner level left ts h)
          (Expr.joinFrom none left (links.takeWhile (atLeast level))) mid := by
  fun_induction joinFrom inner level left ts h with
  | case1 level left op s us h hlt =>
      intro links hlinks
      cases hlinks with
      | nil => exact absurd rfl (unlinked_iff.mp hrest op s us)
      | @cons _ _ _ _ _ first _ hterm hmore =>
          have hneg : ¬ atLeast level (op, first) = true := by simpa [atLeast] using hlt
          rw [List.dropWhile_cons_of_neg hneg, List.takeWhile_cons_of_neg hneg]
          exact ⟨_, .cons hterm hmore, gives_of_eq_ok rfl⟩
  | case2 level left op s us h hle hend =>
      intro links hlinks
      cases hlinks with
      | nil => exact absurd rfl (unlinked_iff.mp hrest op s us)
      | cons hterm _ =>
          rw [hterm.endsOperand] at hend
          cases hend
  | case3 level left op s us h hle hend _ ihright ihwhole =>
      intro links hlinks
      cases hlinks with
      | nil => exact absurd rfl (unlinked_iff.mp hrest op s us)
      | @cons _ _ _ mid _ first more hterm hmore =>
          have hop : level ≤ op.precedence := Nat.le_of_not_lt hle
          have hpos : atLeast level (op, first) = true := decide_eq_true hop
          obtain ⟨_, hmid, hterm⟩ := hterm
          -- the right operand takes what binds more tightly than `op`
          obtain ⟨mid', hmore', hright⟩ := ihright ⟨first, mid, hmid⟩ more hmore
          obtain ⟨mid'', hmore'', hwhole⟩ := ihwhole ⟨first, mid, hmid⟩ ⟨_, mid', hright.1⟩ _ hmore'
          rw [List.dropWhile_cons_of_pos hpos, List.takeWhile_cons_of_pos hpos,
            dropWhile_atLeast hop, joinFrom_takeWhile hop]
          refine ⟨mid'', hmore'', Gives.bind ⟨hmid, hterm⟩ fun _ => hright.bind fun _ => ?_⟩
          exact hwhole.bind fun _ => gives_of_eq_ok rfl
  | case4 level left ts h hne =>
      intro links hlinks
      cases hlinks with
      | nil => exact ⟨_, .nil, gives_of_eq_ok rfl⟩
      | cons => exact absurd HEq.rfl (hne _ _ _ h rfl)

/-- A condition is a term and all links behind it, joined as the grammar joins them. -/
theorem condition_gives_iff {h : ts.length ≤ limit} {e : Expr} :
    Gives (condition inner ts h) e rest ↔
      ∃ first mid links, inner.ReadsTerm ts first mid ∧ Linked inner.ReadsTerm mid links rest ∧
        Unlinked rest ∧ e = Expr.ofTerms first links := by
  constructor
  · rintro ⟨hlt, hp⟩
    obtain ⟨first, hfirst, hp⟩ := ok_of_bind hp
    obtain ⟨whole, hwhole, hp⟩ := ok_of_bind hp
    cases hp
    obtain ⟨links, hlinks, -, hvalue⟩ := joinFrom_linked _ _ _ _ whole hwhole
    refine ⟨first.value, first.rest, links, ⟨h, gives_of_eq_ok hfirst⟩, hlinks, ?_, hvalue⟩
    -- every combinator binds as tightly as the level
    refine unlinked_iff.mpr fun op s us hus => ?_
    have hlt := joinFrom_ends _ _ _ _ whole hwhole op s us hus
    cases op <;> exact absurd hlt (by decide)
  · rintro ⟨first, mid, links, ⟨_, hfirst⟩, hlinks, hrest, rfl⟩
    refine hfirst.bind fun hmid => ?_
    obtain ⟨mid', hmore, hjoin⟩ := joinFrom_of_linked hrest 1 first mid
      (Nat.le_trans (Nat.le_of_lt hmid) h) links hlinks
    rw [(atLeast_one links).1] at hjoin
    rw [(atLeast_one links).2] at hmore
    cases hmore
    exact hjoin.bind fun _ => gives_of_eq_ok rfl

end Grammar

end Edict
