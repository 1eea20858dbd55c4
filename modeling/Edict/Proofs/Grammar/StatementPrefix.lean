import Edict.Proofs.Grammar.ExpressionPrefix
import Edict.Proofs.Grammar.Progress
import Edict.Proofs.Grammar.StatementComplete

/-!
# Mistakes in programs are found at once

What stands in front of the token at which a program fails is the beginning of a program
(`readProgram_extends`): in every state of every reader that can fail, with whatever is open around
it, some tokens complete what has been read.  That the readers accept the completed list follows
from their completeness.

## Main definitions

* `Failure.index`: how many tokens stand in front of the one at which a mistake is reported.

## Main statements

* `Grammar.readStatement_prompt`, `Grammar.readProgram_prompt`: in terms of derivations.
* `readProgram_extends`: for every list that is no program, some tokens behind those in front of the
  mistake make a list that is one.
-/

namespace Edict

open Grammar Derives

/-! ## Something of every kind -/

namespace Derives

/-- There are references. -/
theorem exists_place : ∃ us r, Place us r := ⟨[⟨.ident "", .nowhere⟩], (.ident ""), .mk .nil⟩

/-- There are calls. -/
theorem exists_call : ∃ us c, Call us c :=
  ⟨_, _, .mk (f := "") (s := .nowhere) (t := .nowhere) (u := .nowhere) (.empty .nil)⟩

/-- There are statements. -/
theorem exists_statement : ∃ us s, Statement us s := by
  obtain ⟨us, ⟨f, args⟩, h⟩ := exists_call
  exact ⟨us, _, .call h⟩

/-- There are bodies. -/
theorem exists_body : ∃ us b, Body us b := by
  obtain ⟨us, s, h⟩ := exists_statement
  exact ⟨_, _, .mk .nil h .nil .nil⟩

/-- There are items of arrays. -/
theorem exists_items : ∃ us items, Closed .rbracket (Items ArrayItem) us items :=
  ⟨_, _, _, .nowhere, .last (ArrayItem.mk (t := ⟨.text "", .nowhere⟩) rfl) .nil, rfl⟩

end Derives

namespace Grammar

/-! ## Parts of statements -/

/-- Mistakes in the items of an array are found at once. -/
theorem arrayItems_prompt (ts : List Token) :
    Prompt (Closed .rbracket (Items ArrayItem)) ts (arrayItems ts) := by
  have hclosed : ∀ {t : Token} {item : Literal} {rest : List Token}, t.kind.item? = some item →
      BeginsOff (Closed .rbracket (Items ArrayItem)) (t :: rest) (Token.skipNewlines rest) := by
    intro t item rest hitem
    refine (ReadsOff.breaks rest).begins.cons fun nl _ hnl => ?_
    exact .of_closed .rbracket (Items.last (ArrayItem.mk hitem) hnl)
  fun_induction arrayItems ts with
  | case1 =>
      intro f hf
      cases hf
      exact .nothing exists_items
  | case2 t rest =>
      intro f hf
      cases hf
      exact .nothing exists_items
  | case3 t rest item hitem s after hr _ ih =>
      intro f hf
      rcases error_of_bind hf with hmore | ⟨more, -, hf⟩
      · have ht := TokenKind.ne_eof_of_role hitem rfl
        have hitems := (ReadsOff.one t ht).cat (.breaks rest)
        rw [hr] at hitems
        have hcomma := (ReadsOff.one ⟨.symbol .comma, s⟩ (by simp)).cat (.breaks after)
        refine .behind (hitems.cat hcomma) (ih f hmore) ?_
        rintro _ _ items ⟨_, _, ⟨_, nl, rfl, hnl, rfl⟩, ⟨_, nl', rfl, hnl', rfl⟩, rfl⟩
          ⟨us, u, hus, rfl⟩
        have hmore := Items.more (s := s) (ArrayItem.mk hitem) hnl hnl' hus
        exact .of_derives ⟨_, u, hmore, by simp⟩
      · cases hf
  | case4 => exact .ok
  | case5 t rest item hitem =>
      intro f hf
      cases hf
      exact hclosed hitem
  | case6 t rest item hitem =>
      intro f hf
      cases hf
      exact hclosed hitem

/-- Mistakes in arrays are found at once. -/
theorem arrayLiteral_prompt (ts : List Token) : Prompt Items? ts (arrayLiteral ts) := by
  intro f hf
  unfold arrayLiteral at hf
  rcases error_of_bind hf with hstart | ⟨start, hstart, hf⟩
  · rw [sign_prompt _ _ hstart]
    exact .nothing ⟨_, _, .nowhere, .nowhere, _, .empty .nil, rfl⟩
  · have hopen := (sign_sound _ _ start hstart).cat (.breaks start.rest)
    split at hf
    · cases hf
    · rcases error_of_bind hf with hitems | ⟨items, -, hf⟩
      · refine .behind hopen (arrayItems_prompt _ f hitems) ?_
        rintro _ _ items ⟨_, nl, ⟨t, rfl⟩, hnl, rfl⟩ ⟨us, u, hus, rfl⟩
        exact .of_derives ⟨t, u, nl ++ us, .items hnl hus, by simp⟩
      · cases hf

/-- Mistakes in references are found at once. -/
theorem reference_prompt (ts : List Token) : Prompt Place ts (reference ts) := by
  intro f hf
  unfold reference at hf
  split at hf
  · rcases error_of_bind hf with hpath | ⟨path, -, hf⟩
    · exact (readSteps_prompt _ f hpath).cons fun us path hus => .of_derives (.mk hus)
    · cases hf
  · cases hf
    exact .nothing exists_place

/-- Mistakes in calls are found at once. -/
theorem call_prompt (ts : List Token) : Prompt Call ts (call ts) := by
  intro f hf
  unfold call at hf
  split at hf
  · rename_i name s rest
    rcases error_of_bind hf with hstart | ⟨start, hstart, hf⟩
    · rw [sign_prompt _ _ hstart]
      exact .one ⟨_, _, .mk (t := s) (u := s) (.empty .nil)⟩
    · rcases error_of_bind hf with hargs | ⟨args, -, hf⟩
      · have hopen := (sign_sound _ _ start hstart).cat (.breaks start.rest)
        have hname := (ReadsOff.one ⟨.ident name, s⟩ (by simp)).cat hopen
        refine .behind hname (readArguments_prompt _ f hargs) ?_
        rintro _ _ args ⟨_, _, rfl, ⟨_, nl, ⟨t, rfl⟩, hnl, rfl⟩, rfl⟩ ⟨us, u, hus, rfl⟩
        have hcall := Call.mk (f := name) (s := s) (t := t) (u := u) (hus.append hnl)
        exact .of_derives (by simpa using hcall)
      · cases hf
  · cases hf
    exact .nothing exists_call

/-- Mistakes in assignments are found at once. -/
theorem assignment_prompt (ts : List Token) : Prompt Statement ts (assignment ts) := by
  have hmissing : ∀ {us r}, Place us r → Begins Statement us := by
    intro us r hus
    obtain ⟨vs, e, hvs⟩ := exists_boolean
    exact ⟨⟨.symbol .eq, .nowhere⟩ :: vs, _, .assign hus rfl hvs⟩
  intro f hf
  unfold assignment at hf
  rcases error_of_bind hf with htarget | ⟨target, htarget, hf⟩
  · exact (reference_prompt _ f htarget).map fun us r hus => hmissing hus
  · have hplace := reference_sound _ target htarget
    split at hf
    · rename_i hr
      cases hf
      rw [hr] at hplace
      exact hplace.begins.map fun us r hus => hmissing hus
    · rename_i t rest hr
      rw [hr] at hplace
      split at hf
      · cases hf
        exact hplace.begins.map fun us r hus => hmissing hus
      · rename_i op hop
        rcases error_of_bind hf with hvalue | ⟨value, -, hf⟩
        · have hsign := hplace.cat (.one t (TokenKind.ne_eof_of_role hop rfl))
          refine .behind hsign (readExpression_prompt _ f hvalue) ?_
          rintro _ vs e ⟨us, _, hus, rfl, rfl⟩ hvs
          have hassign := Statement.assign hus hop hvs
          exact .of_derives (by simpa using hassign)
        · cases hf

/-! ## Statements and bodies -/

variable {limit : Nat}

/-- The reader for the statements of bodies finds mistakes at once. -/
def Inner.Prompt (inner : Inner limit) : Prop := ∀ ts h, Edict.Prompt Statement ts (inner ts h)

variable {inner : Inner limit}

/-- Mistakes in the further statements of a body are found at once. -/
theorem bodyFrom_prompt (hi : Inner.Sound inner) (hm : Inner.Prompt inner) (ts : List Token)
    (h : ts.length ≤ limit) : Prompt BodyRest ts (bodyFrom inner ts h) := by
  fun_induction bodyFrom inner ts h with
  | case1 s rest h _ _ ih =>
      intro f hf
      rcases error_of_bind hf with hfirst | ⟨first, hfirst, hf⟩
      · refine (hm _ _ f hfirst).cons fun us v hus => ?_
        have hrest : BodyRest (⟨.symbol .semicolon, s⟩ :: us ++ []) [v] :=
          ⟨_, [], .cons (.mk (s := s) hus) .nil, .nil, by simp⟩
        exact .of_append (.of_derives hrest)
      · rcases error_of_bind hf with hmore | ⟨more, -, hf⟩
        · have hfurther := (ReadsOff.one ⟨.symbol .semicolon, s⟩ (by simp)).cat (hi _ _ first hfirst)
          refine .behind hfurther (ih first f hmore) ?_
          rintro _ _ more ⟨_, us, rfl, hus, rfl⟩ ⟨vs, semi, hvs, hsemi, rfl⟩
          exact .of_derives ⟨_, semi, .cons (.mk (s := s) hus) hvs, hsemi, by simp⟩
        · cases hf
  | case2 => exact .ok
  | case3 => exact .ok

/-- Mistakes in bodies are found at once. -/
theorem body_prompt (hi : Inner.Sound inner) (hm : Inner.Prompt inner) (ts : List Token)
    (h : ts.length < limit) : Prompt Body ts (body inner ts h) := by
  intro f hf
  unfold body at hf
  rcases error_of_bind hf with hfirst | ⟨first, hfirst, hf⟩
  · refine .behind (.breaks ts) (hm _ _ f hfirst) fun nl us s hnl hus => ?_
    have hbody := Body.mk hnl hus .nil .nil
    exact .of_derives (by simpa using hbody)
  · rcases error_of_bind hf with hmore | ⟨more, -, hf⟩
    · have hstart := (ReadsOff.breaks ts).cat (hi _ _ first hfirst)
      refine .behind hstart (bodyFrom_prompt hi hm _ _ f hmore) ?_
      rintro _ _ more ⟨nl, us, hnl, hus, rfl⟩ ⟨vs, semi, hvs, hsemi, rfl⟩
      have hbody := Body.mk hnl hus hvs hsemi
      exact .of_derives (by simpa using hbody)
    · cases hf

/-- Mistakes in branches are found at once. -/
theorem branch_prompt (hi : Inner.Sound inner) (hm : Inner.Prompt inner) (ts : List Token)
    (h : ts.length < limit) : Prompt (Behind .ifKw) ts (branch inner ts h) := by
  have hmissing : ∀ {us c}, Boolean us c → Begins (Behind .ifKw) us := by
    intro us c hus
    obtain ⟨vs, b, hvs⟩ := exists_body
    exact ⟨⟨.keyword .thenKw, .nowhere⟩ :: vs, _, fun s => .branch hus hvs⟩
  intro f hf
  unfold branch at hf
  rcases error_of_bind hf with htest | ⟨test, htest, hf⟩
  · exact (readCondition_prompt _ f htest).map fun us c hus => hmissing hus
  · have hcond := readCondition_sound _ test htest
    split at hf
    · rename_i t rest hr
      rw [hr] at hcond
      have hthen := hcond.cat (.one ⟨.keyword .thenKw, t⟩ (by simp))
      rcases error_of_bind hf with hbody | ⟨thenBody, hbody, hf⟩
      · refine .behind hthen (body_prompt hi hm _ _ f hbody) ?_
        rintro _ vs b ⟨us, _, hus, rfl, rfl⟩ hvs
        exact .of_derives (v := .branch _ b none) fun s => by
          have hbranch := Statement.branch (s := s) (t := t) hus hvs
          simpa using hbranch
      · have hbody := hthen.cat (body_sound hi _ _ thenBody hbody)
        split at hf
        · rename_i u after he
          rcases error_of_bind hf with helse | ⟨elseBody, -, hf⟩
          · have hbreaks := ReadsOff.breaks thenBody.rest
            rw [he] at hbreaks
            have hword := hbreaks.cat (.one ⟨.keyword .elseKw, u⟩ (by simp))
            refine .behind (hbody.cat hword) (body_prompt hi hm _ _ f helse) ?_
            rintro _ ws d ⟨_, _, ⟨_, vs, ⟨us, _, hus, rfl, rfl⟩, hvs, rfl⟩,
              ⟨nl, _, hnl, rfl, rfl⟩, rfl⟩ hws
            exact .of_derives (v := .branch _ _ (some d)) fun s => by
              have hbranch := Statement.branchElse (s := s) (t := t) (u := u) hus hvs hnl hws
              simpa using hbranch
          · cases hf
        · cases hf
    · rename_i s rest hr
      cases hf
      rw [hr] at hcond
      exact hcond.begins.map fun us c hus => hmissing hus
    · cases hf
      exact hcond.begins.map fun us c hus => hmissing hus

/-- Mistakes in loops are found at once. -/
theorem loop_prompt (hi : Inner.Sound inner) (hm : Inner.Prompt inner) (ts : List Token)
    (h : ts.length < limit) : Prompt (Behind .forKw) ts (loop inner ts h) := by
  obtain ⟨bs, b, hbs⟩ := exists_body
  intro f hf
  unfold loop at hf
  split at hf
  · rename_i s t rest h
    have hbody : ∀ {is items vs b}, Items? is items → Body vs b →
        Begins (Behind .forKw) (⟨.keyword .eachKw, s⟩ :: (is ++ vs)) := by
      rintro _ items vs b ⟨u, v, us, hus, rfl⟩ hvs
      exact .of_derives (v := .each (.literals items) b) fun w => by
        have hloop := Statement.eachItem (s := w) (t := s) (u := u) (v := v) hus hvs
        simpa using hloop
    rcases error_of_bind hf with hitems | ⟨items, hitems, hf⟩
    · exact (arrayLiteral_prompt _ f hitems).cons fun is items his => .of_append (hbody his hbs)
    · rcases error_of_bind hf with hinside | ⟨inside, -, hf⟩
      · have hhead := (ReadsOff.one ⟨.keyword .eachKw, s⟩ (by simp)).cat
          (arrayLiteral_sound _ items hitems)
        refine .behind hhead (body_prompt hi hm _ _ f hinside) ?_
        rintro _ vs b ⟨_, is, rfl, his, rfl⟩ hvs
        exact hbody his hvs
      · cases hf
  · rename_i s root t rest h
    have hbody : ∀ {ps r vs b}, Place ps r → Body vs b →
        Begins (Behind .forKw) (⟨.keyword .eachKw, s⟩ :: (ps ++ vs)) := fun hps hvs =>
      .of_derives fun w => .eachOf hps hvs
    rcases error_of_bind hf with hplace | ⟨place, hplace, hf⟩
    · exact (reference_prompt _ f hplace).cons fun ps r hps => .of_append (hbody hps hbs)
    · rcases error_of_bind hf with hinside | ⟨inside, -, hf⟩
      · have hhead := (ReadsOff.one ⟨.keyword .eachKw, s⟩ (by simp)).cat
          (reference_sound _ place hplace)
        refine .behind hhead (body_prompt hi hm _ _ f hinside) ?_
        rintro _ vs b ⟨_, ps, rfl, hps, rfl⟩ hvs
        exact hbody hps hvs
      · cases hf
  · cases hf
    obtain ⟨ps, r, hps⟩ := exists_place
    exact .one ⟨_, _, fun w => .eachOf hps hbs⟩
  · rename_i s rest h
    have hbody : ∀ {cs c vs b} (t : Span), Boolean cs c → Body vs b →
        Begins (Behind .forKw) (⟨.symbol .lparen, s⟩ :: (cs ++ ⟨.symbol .rparen, t⟩ :: vs)) :=
      fun t hcs hvs => .of_derives fun w => .count hcs hvs
    have hinside : BeginsOff Boolean rest f.rest →
        BeginsOff (Behind .forKw) (⟨.symbol .lparen, s⟩ :: rest) f.rest := fun hbound =>
      hbound.cons fun cs c hcs => .of_append (hbody s hcs hbs)
    rcases error_of_bind hf with hbound | ⟨bound, hbound, hf⟩
    · exact hinside (readExpression_prompt _ f hbound)
    · have hcond := readExpression_sound _ bound hbound
      rcases error_of_bind hf with hclose | ⟨close, hclose, hf⟩
      · rw [sign_prompt _ _ hclose] at hinside ⊢
        exact hinside hcond.begins
      · rcases error_of_bind hf with hbody' | ⟨inside, -, hf⟩
        · have hhead := (ReadsOff.one ⟨.symbol .lparen, s⟩ (by simp)).cat
            (hcond.cat (sign_sound _ _ close hclose))
          refine .behind hhead (body_prompt hi hm _ _ f hbody') ?_
          rintro _ vs b ⟨_, _, rfl, ⟨cs, _, hcs, ⟨t, rfl⟩, rfl⟩, rfl⟩ hvs
          simpa using hbody t hcs hvs
        · cases hf
  · cases hf
    obtain ⟨cs, c, hcs⟩ := exists_boolean
    exact .nothing ⟨_, _, fun w => .count (t := .nowhere) (u := .nowhere) hcs hbs⟩

/-- Mistakes in statements are found at once. -/
theorem statement_prompt (hi : Inner.Sound inner) (hm : Inner.Prompt inner) (ts : List Token)
    (h : ts.length ≤ limit) : Prompt Statement ts (statement inner ts h) := by
  intro f hf
  unfold statement at hf
  split at hf
  · rename_i s rest h
    rcases error_of_bind hf with hinside | ⟨inside, -, hf⟩
    · exact (branch_prompt hi hm _ _ f hinside).cons fun us b hus => .of_derives (hus s)
    · cases hf
  · rename_i s rest h
    rcases error_of_bind hf with hinside | ⟨inside, -, hf⟩
    · exact (loop_prompt hi hm _ _ f hinside).cons fun us b hus => .of_derives (hus s)
    · cases hf
  · rcases error_of_bind hf with hc | ⟨c, -, hf⟩
    · exact (call_prompt _ f hc).map fun us c hus => .of_derives (.call hus)
    · cases hf
  · exact assignment_prompt _ f hf
  · cases hf
    exact .nothing exists_statement

/-! ## The knot -/

/-- Mistakes in a statement are found at once. -/
theorem readStatement_prompt (ts : List Token) : Prompt Statement ts (readStatement ts) := by
  rw [readStatement]
  exact statement_prompt (fun us _ => readStatement_sound us) (fun us _ => readStatement_prompt us)
    ts _
termination_by ts.length

/-! ## Programs -/

/-- What follows a statement without ending it is a mistake at once. -/
theorem readProgram_prompt (ts : List Token) {f : Failure} (hf : readProgram ts = .error f) :
    BeginsOff Derives.Program ts f.rest := by
  fun_induction readProgram ts with
  | case1 => cases hf
  | case2 => cases hf
  | case3 ts t rest _ hr _ ih =>
      have hgaps := ReadsOff.gaps ts
      rw [hr] at hgaps
      rcases error_of_bind hf with hs | ⟨s, hs, hf⟩
      · refine .behind hgaps (readStatement_prompt _ f hs) fun seps us s hseps hus => ?_
        have hprogram := Derives.Program.statements hseps hus .nil .nil
        exact .of_derives (by simpa using hprogram)
      · have hfirst := hgaps.cat (readStatement_sound _ s hs)
        have halone : BeginsOff Derives.Program ts s.rest := by
          refine hfirst.begins.map ?_
          rintro _ _ ⟨seps, us, hseps, hus, rfl⟩
          have hprogram := Derives.Program.statements hseps hus .nil .nil
          exact .of_derives (by simpa using hprogram)
        rcases error_of_bind hf with hend | ⟨⟨⟩, hend, hf⟩
        · rw [rest_of_statementEnd hend]
          exact halone
        · rcases error_of_bind hf with hmore | ⟨more, -, hf⟩
          · obtain ⟨us, ⟨more, p, hus⟩, hrest⟩ := ih s hmore
            rcases us with _ | ⟨u, us⟩
            · rw [List.nil_append] at hrest
              rwa [← hrest]
            · -- what follows the statement begins with a token that ends it
              have hends := endsStatement_of_statementEnd hend
              rw [hrest, List.cons_append, peek_cons] at hends
              have hbegins : BeginsOff (fun vs p => Derives.Program vs p ∧
                  (Token.peek vs).kind.endsStatement = true) s.rest f.rest :=
                ⟨u :: us, ⟨more, p, hus, hends⟩, hrest⟩
              refine .behind hfirst hbegins ?_
              rintro _ vs p ⟨seps, us, hseps, hs, rfl⟩ ⟨hp, hvs⟩
              have hprogram := Program.cons hseps hs hp [] (by rwa [List.append_nil])
              exact .of_derives (by simpa using hprogram)
          · cases hf

end Grammar

/-! ## The place of a mistake -/

namespace Failure

/-- How many tokens stand in front of the one at which the mistake is reported. -/
def index (ts : List Token) (f : Failure) : Nat := ts.length - f.rest.length

/-- It is the number of the tokens in front of the rest. -/
theorem index_eq {ts used : List Token} {f : Failure} (h : ts = used ++ f.rest) :
    f.index ts = used.length := by
  unfold index
  rw [h, List.length_append, Nat.add_sub_cancel]

/-- These tokens and the rest are the list. -/
theorem take_index {ts used : List Token} {f : Failure} (h : ts = used ++ f.rest) :
    ts.take (f.index ts) = used := by
  rw [index_eq h, h, List.take_left]

/-- The token at which the mistake is reported has this place in the list, with an end of input
behind it. -/
theorem token_at_index {ts used : List Token} {f : Failure} (h : ts = used ++ f.rest) :
    (ts ++ [Token.eof])[f.index ts]? = some f.token := by
  rw [index_eq h, h, List.append_assoc, List.getElem?_append_right (Nat.le_refl _), Nat.sub_self]
  unfold token
  cases f.rest <;> rfl

end Failure

/-- No mistake is found too late: the tokens in front of the one at which it is reported go on to a
list that is read as a program. -/
theorem readProgram_extends {ts : List Token} {f : Failure} (h : readProgram ts = .error f) :
    (ts ++ [Token.eof])[f.index ts]? = some f.token ∧
      ∃ more p, readProgram (ts.take (f.index ts) ++ more) = .ok p := by
  obtain ⟨used, ⟨more, p, hderives⟩, hts⟩ := readProgram_prompt ts h
  obtain ⟨p, hp⟩ : ∃ p, readProgram (_ ++ []) = .ok p := readProgram_complete hderives rfl
  rw [List.append_nil] at hp
  refine ⟨Failure.token_at_index hts, more, p, ?_⟩
  rwa [Failure.take_index hts]

/-- A comma that is missing in an array, in a loop in a branch: what stands in front of the second
item can be completed. -/
theorem readProgram_extends_open :
    let opened : List Token :=
      [⟨.keyword .ifKw, ⟨0, 2⟩⟩, ⟨.ident "a", ⟨3, 4⟩⟩, ⟨.keyword .thenKw, ⟨5, 9⟩⟩,
        ⟨.keyword .forKw, ⟨10, 13⟩⟩, ⟨.keyword .eachKw, ⟨14, 18⟩⟩, ⟨.symbol .lbracket, ⟨19, 20⟩⟩,
        ⟨.text "x", ⟨20, 23⟩⟩]
    readProgram (opened ++ [⟨.text "y", ⟨24, 27⟩⟩, ⟨.eof, ⟨27, 27⟩⟩]) =
        .error ⟨.missingComma, [⟨.text "y", ⟨24, 27⟩⟩, ⟨.eof, ⟨27, 27⟩⟩]⟩ ∧
      ∃ more p, readProgram (opened ++ more) = .ok p := by
  intro opened
  have hmistake : readProgram (opened ++ [⟨.text "y", ⟨24, 27⟩⟩, ⟨.eof, ⟨27, 27⟩⟩]) =
      .error ⟨.missingComma, [⟨.text "y", ⟨24, 27⟩⟩, ⟨.eof, ⟨27, 27⟩⟩]⟩ := by with_unfolding_all rfl
  exact ⟨hmistake, (readProgram_extends hmistake).2⟩

end Edict
