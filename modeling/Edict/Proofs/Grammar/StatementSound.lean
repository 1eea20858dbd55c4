import Edict.Proofs.Grammar.ExpressionSound

/-!
# Programs that are read are derived

Whatever is read as a statement is derived by exactly the tokens that were used
(`Grammar.readStatement_sound`), and a program that is read is derived by exactly the tokens in
front of the first end of input (`Grammar.readProgram_sound`).

## Main statements

* `Grammar.readStatement_sound`: on every list of tokens, for statements with bodies of any depth.
* `Grammar.readProgram_sound`: what is read is derived, and what is left begins with an end of
  input.
-/

namespace Edict

open Grammar Derives

namespace Derives

/-- A statement has a first token, and it is one that statements begin with. -/
theorem Statement.head {us : List Token} {s : Stmt} (h : Statement us s) (rest : List Token) :
    ∃ t vs, us = t :: vs ∧ startsStatement (us ++ rest) = true := by
  cases h with
  | branch => exact ⟨_, _, rfl, rfl⟩
  | branchElse => exact ⟨_, _, rfl, rfl⟩
  | count => exact ⟨_, _, rfl, rfl⟩
  | eachItem => exact ⟨_, _, rfl, rfl⟩
  | eachOf => exact ⟨_, _, rfl, rfl⟩
  | assign hplace _ _ =>
      obtain ⟨_, _, _, _, rfl, -, -⟩ := hplace.exists_path
      exact ⟨_, _, rfl, rfl⟩
  | call hcall =>
      cases hcall with
      | mk => exact ⟨_, _, rfl, rfl⟩

/-- An array: items in brackets, without a comma after the last one. -/
def Items? (ts : List Token) (items : List Literal) : Prop :=
  ∃ s t us, Delimited false ArrayItem us items ∧
    ts = ⟨.symbol .lbracket, s⟩ :: (us ++ [⟨.symbol .rbracket, t⟩])

/-- What a body has behind its first statement. -/
def BodyRest (ts : List Token) (rest : List Stmt) : Prop :=
  ∃ us semi, Star Further us rest ∧ Semicolon? semi ∧ ts = us ++ semi

/-- What a statement has behind its first word. -/
def Behind (word : Keyword) (ts : List Token) (s : Stmt) : Prop :=
  ∀ span, Statement (⟨.keyword word, span⟩ :: ts) s

end Derives

/-- What a statement begins with ends no statement. -/
theorem endsStatement_of_startsStatement {ts : List Token} (h : startsStatement ts = true) :
    (Token.peek ts).kind.endsStatement = false := by
  unfold startsStatement at h
  split at h
  · rename_i hk
    rw [hk]
    rfl
  · rename_i hk
    rw [hk]
    rfl
  · rename_i hk
    rw [hk]
    rfl
  · cases h

namespace Grammar

/-! ## Parts of statements -/

/-- The items of an array are read soundly. -/
theorem arrayItems_sound (ts : List Token) :
    Sound (Closed .rbracket (Items ArrayItem)) ts (arrayItems ts) := by
  fun_induction arrayItems ts with
  | case1 => intro p hp; cases hp
  | case2 => intro p hp; cases hp
  | case3 t rest item hitem s after hr _ ih =>
      intro p hp
      obtain ⟨more, hmore, hp⟩ := ok_of_bind hp
      cases hp
      have ht := TokenKind.ne_eof_of_role hitem rfl
      have hitems := (ReadsOff.one t ht).cat (.breaks rest)
      rw [hr] at hitems
      have hcomma := (ReadsOff.one ⟨.symbol .comma, s⟩ (by simp)).cat (.breaks after)
      refine ((hitems.cat hcomma).cat (ih more hmore)).map ?_
      rintro _ ⟨_, _, ⟨_, _, ⟨_, nl, rfl, hnl, rfl⟩, ⟨_, nl', rfl, hnl', rfl⟩, rfl⟩,
        ⟨us, u, hus, rfl⟩, rfl⟩
      have := Items.more (s := s) (ArrayItem.mk hitem) hnl hnl' hus
      exact ⟨_, u, this, by simp⟩
  | case4 t rest item hitem s after hr =>
      intro p hp
      cases hp
      have ht := TokenKind.ne_eof_of_role hitem rfl
      have hitems := (ReadsOff.one t ht).cat (.breaks rest)
      rw [hr] at hitems
      refine (hitems.cat (.one ⟨.symbol .rbracket, s⟩ (by simp))).map ?_
      rintro _ ⟨_, _, ⟨_, nl, rfl, hnl, rfl⟩, rfl, rfl⟩
      exact ⟨_, s, .last (.mk hitem) hnl, rfl⟩
  | case5 => intro p hp; cases hp
  | case6 => intro p hp; cases hp

/-- Arrays are read soundly. -/
theorem arrayLiteral_sound (ts : List Token) : Sound Items? ts (arrayLiteral ts) := by
  intro p hp
  unfold arrayLiteral at hp
  obtain ⟨start, hstart, hp⟩ := ok_of_bind hp
  have hopen := (sign_sound _ _ start hstart).cat (.breaks start.rest)
  split at hp
  · rename_i s rest hr
    cases hp
    rw [hr] at hopen
    refine (hopen.cat (.one ⟨.symbol .rbracket, s⟩ (by simp))).map ?_
    rintro _ ⟨_, _, ⟨_, nl, ⟨t, rfl⟩, hnl, rfl⟩, rfl, rfl⟩
    exact ⟨t, s, nl, .empty hnl, rfl⟩
  · obtain ⟨items, hitems, hp⟩ := ok_of_bind hp
    cases hp
    refine (hopen.cat (arrayItems_sound _ items hitems)).map ?_
    rintro _ ⟨_, _, ⟨_, nl, ⟨t, rfl⟩, hnl, rfl⟩, ⟨us, u, hus, rfl⟩, rfl⟩
    exact ⟨t, u, nl ++ us, .items hnl hus, by simp⟩

/-- References are read soundly. -/
theorem reference_sound (ts : List Token) : Sound Place ts (reference ts) := by
  intro p hp
  unfold reference at hp
  split at hp
  · rename_i root s rest
    obtain ⟨path, hpath, hp⟩ := ok_of_bind hp
    cases hp
    refine ((ReadsOff.one ⟨.ident root, s⟩ (by simp)).cat (readSteps_sound _ path hpath)).map ?_
    rintro _ ⟨_, us, rfl, hus, rfl⟩
    exact .mk hus
  · cases hp

/-- Calls are read soundly. -/
theorem call_sound (ts : List Token) : Sound Call ts (call ts) := by
  intro p hp
  unfold call at hp
  split at hp
  · rename_i f s rest
    obtain ⟨start, hstart, hp⟩ := ok_of_bind hp
    obtain ⟨args, hargs, hp⟩ := ok_of_bind hp
    cases hp
    have hopen := (sign_sound _ _ start hstart).cat (.breaks start.rest)
    refine ((ReadsOff.one ⟨.ident f, s⟩ (by simp)).cat
      (hopen.cat (readArguments_sound _ args hargs))).map ?_
    rintro _ ⟨_, _, rfl, ⟨_, _, ⟨_, nl, ⟨t, rfl⟩, hnl, rfl⟩, ⟨us, u, hus, rfl⟩, rfl⟩, rfl⟩
    have := Call.mk (f := f) (s := s) (t := t) (u := u) (hus.append hnl)
    simpa using this
  · cases hp

/-- Assignments are read soundly. -/
theorem assignment_sound (ts : List Token) : Sound Statement ts (assignment ts) := by
  intro p hp
  unfold assignment at hp
  obtain ⟨target, htarget, hp⟩ := ok_of_bind hp
  have hplace := reference_sound _ target htarget
  split at hp
  · cases hp
  · rename_i t rest hr
    split at hp
    · cases hp
    · rename_i op hop
      obtain ⟨value, hvalue, hp⟩ := ok_of_bind hp
      cases hp
      have ht := TokenKind.ne_eof_of_role hop rfl
      rw [hr] at hplace
      refine (hplace.cat ((ReadsOff.one t ht).cat (readExpression_sound _ value hvalue))).map ?_
      rintro _ ⟨us, _, hus, ⟨_, vs, rfl, hvs, rfl⟩, rfl⟩
      exact .assign hus hop hvs

/-! ## Statements and bodies -/

variable {limit : Nat}

/-- What the reader for the statements of bodies returns is derived by the tokens that it used. -/
def Inner.Sound (inner : Inner limit) : Prop := ∀ ts h, Edict.Sound Statement ts (inner ts h)

variable {inner : Inner limit}

/-- The further statements of a body are read soundly. -/
theorem bodyFrom_sound (hi : Inner.Sound inner) (ts : List Token) (h : ts.length ≤ limit) :
    Sound BodyRest ts (bodyFrom inner ts h) := by
  fun_induction bodyFrom inner ts h with
  | case1 s rest h _ _ ih =>
      intro p hp
      obtain ⟨first, hfirst, hp⟩ := ok_of_bind hp
      obtain ⟨more, hmore, hp⟩ := ok_of_bind hp
      cases hp
      refine (((ReadsOff.one ⟨.symbol .semicolon, s⟩ (by simp)).cat (hi _ _ first hfirst)).cat
        (ih first more hmore)).map ?_
      rintro _ ⟨_, _, ⟨_, us, rfl, hus, rfl⟩, ⟨vs, semi, hvs, hsemi, rfl⟩, rfl⟩
      exact ⟨_, semi, .cons (.mk (s := s) hus) hvs, hsemi, by simp⟩
  | case2 s rest h =>
      intro p hp
      cases hp
      refine (ReadsOff.one ⟨.symbol .semicolon, s⟩ (by simp)).map ?_
      rintro _ rfl
      exact ⟨[], _, .nil, .inr ⟨s, rfl⟩, rfl⟩
  | case3 ts h =>
      intro p hp
      cases hp
      exact .nothing ⟨[], [], .nil, .inl rfl, rfl⟩

/-- Bodies are read soundly. -/
theorem body_sound (hi : Inner.Sound inner) (ts : List Token) (h : ts.length < limit) :
    Sound Body ts (body inner ts h) := by
  intro p hp
  unfold body at hp
  obtain ⟨first, hfirst, hp⟩ := ok_of_bind hp
  obtain ⟨more, hmore, hp⟩ := ok_of_bind hp
  cases hp
  refine ((ReadsOff.breaks ts).cat ((hi _ _ first hfirst).cat
    (bodyFrom_sound hi _ _ more hmore))).map ?_
  rintro _ ⟨nl, _, hnl, ⟨us, _, hus, ⟨vs, semi, hvs, hsemi, rfl⟩, rfl⟩, rfl⟩
  exact .mk hnl hus hvs hsemi

/-- Branches are read soundly. -/
theorem branch_sound (hi : Inner.Sound inner) (ts : List Token) (h : ts.length < limit) :
    Sound (Behind .ifKw) ts (branch inner ts h) := by
  intro p hp
  unfold branch at hp
  obtain ⟨test, htest, hp⟩ := ok_of_bind hp
  have hcond := readCondition_sound _ test htest
  split at hp
  · rename_i t rest hr
    obtain ⟨thenBody, hthen, hp⟩ := ok_of_bind hp
    rw [hr] at hcond
    have hthen := hcond.cat ((ReadsOff.one ⟨.keyword .thenKw, t⟩ (by simp)).cat
      (body_sound hi _ _ thenBody hthen))
    split at hp
    · rename_i u after he
      obtain ⟨elseBody, helse, hp⟩ := ok_of_bind hp
      cases hp
      have helse := (ReadsOff.one ⟨.keyword .elseKw, u⟩ (by simp)).cat
        (body_sound hi _ _ elseBody helse)
      have hbreaks := ReadsOff.breaks thenBody.rest
      rw [he] at hbreaks
      refine (hthen.cat (hbreaks.cat helse)).map ?_
      rintro _ ⟨_, _, ⟨us, _, hus, ⟨_, vs, rfl, hvs, rfl⟩, rfl⟩,
        ⟨nl, _, hnl, ⟨_, ws, rfl, hws, rfl⟩, rfl⟩, rfl⟩
      intro s
      have := Statement.branchElse (s := s) (t := t) (u := u) hus hvs hnl hws
      simpa using this
    · cases hp
      refine hthen.map ?_
      rintro _ ⟨us, _, hus, ⟨_, vs, rfl, hvs, rfl⟩, rfl⟩
      intro s
      exact .branch hus hvs
  · cases hp
  · cases hp

/-- Loops are read soundly. -/
theorem loop_sound (hi : Inner.Sound inner) (ts : List Token) (h : ts.length < limit) :
    Sound (Behind .forKw) ts (loop inner ts h) := by
  intro p hp
  unfold loop at hp
  split at hp
  · rename_i s t rest h
    obtain ⟨items, hitems, hp⟩ := ok_of_bind hp
    obtain ⟨inside, hinside, hp⟩ := ok_of_bind hp
    cases hp
    refine ((ReadsOff.one ⟨.keyword .eachKw, s⟩ (by simp)).cat
      ((arrayLiteral_sound _ items hitems).cat (body_sound hi _ _ inside hinside))).map ?_
    rintro _ ⟨_, _, rfl, ⟨_, vs, ⟨u, v, us, hus, rfl⟩, hvs, rfl⟩, rfl⟩
    intro w
    have := Statement.eachItem (s := w) (t := s) (u := u) (v := v) hus hvs
    simpa using this
  · rename_i s root t rest h
    obtain ⟨place, hplace, hp⟩ := ok_of_bind hp
    obtain ⟨inside, hinside, hp⟩ := ok_of_bind hp
    cases hp
    refine ((ReadsOff.one ⟨.keyword .eachKw, s⟩ (by simp)).cat
      ((reference_sound _ place hplace).cat (body_sound hi _ _ inside hinside))).map ?_
    rintro _ ⟨_, _, rfl, ⟨us, vs, hus, hvs, rfl⟩, rfl⟩
    intro w
    have := Statement.eachOf (s := w) (t := s) hus hvs
    simpa using this
  · cases hp
  · rename_i s rest h
    obtain ⟨bound, hbound, hp⟩ := ok_of_bind hp
    obtain ⟨close, hclose, hp⟩ := ok_of_bind hp
    obtain ⟨inside, hinside, hp⟩ := ok_of_bind hp
    cases hp
    have hhead := (ReadsOff.one ⟨.symbol .lparen, s⟩ (by simp)).cat
      ((readExpression_sound _ bound hbound).cat (sign_sound _ _ close hclose))
    refine (hhead.cat (body_sound hi _ _ inside hinside)).map ?_
    rintro _ ⟨_, vs, ⟨_, _, rfl, ⟨us, _, hus, ⟨t, rfl⟩, rfl⟩, rfl⟩, hvs, rfl⟩
    intro w
    have := Statement.count (s := w) (t := s) (u := t) hus hvs
    simpa using this
  · cases hp

/-- Statements are read soundly. -/
theorem statement_sound (hi : Inner.Sound inner) (ts : List Token) (h : ts.length ≤ limit) :
    Sound Statement ts (statement inner ts h) := by
  intro p hp
  unfold statement at hp
  split at hp
  · rename_i s rest h
    obtain ⟨inside, hinside, hp⟩ := ok_of_bind hp
    cases hp
    refine ((ReadsOff.one ⟨.keyword .ifKw, s⟩ (by simp)).cat
      (branch_sound hi _ _ inside hinside)).map ?_
    rintro _ ⟨_, us, rfl, hus, rfl⟩
    exact hus s
  · rename_i s rest h
    obtain ⟨inside, hinside, hp⟩ := ok_of_bind hp
    cases hp
    refine ((ReadsOff.one ⟨.keyword .forKw, s⟩ (by simp)).cat
      (loop_sound hi _ _ inside hinside)).map ?_
    rintro _ ⟨_, us, rfl, hus, rfl⟩
    exact hus s
  · obtain ⟨c, hc, hp⟩ := ok_of_bind hp
    cases hp
    exact (call_sound _ c hc).map fun _ hus => .call hus
  · exact assignment_sound _ p hp
  · cases hp

/-! ## The knot -/

/-- Statements are derived by what they are read from. -/
theorem readStatement_sound (ts : List Token) : Sound Statement ts (readStatement ts) := by
  rw [readStatement]
  exact statement_sound (fun us _ => readStatement_sound us) ts _
termination_by ts.length

/-! ## Programs -/

/-- What may stand behind a statement is a separator or an end of input. -/
theorem endsStatement_of_statementEnd {ts : List Token} (h : statementEnd ts = .ok ()) :
    (Token.peek ts).kind.endsStatement = true := by
  unfold statementEnd at h
  split at h
  · cases h
  · split at h
    · assumption
    · cases h

/-- A statement in front of a program that begins with a separator or is empty. -/
theorem Program.cons {seps ts us : List Token} {s : Stmt} {p : Edict.Program}
    (hseps : Separators seps) (hs : Statement ts s) (hp : Derives.Program us p) (rest : List Token)
    (hend : (Token.peek (us ++ rest)).kind.endsStatement = true) :
    Derives.Program (seps ++ (ts ++ us)) (s :: p) := by
  cases hp with
  | empty hus => exact .statements hseps hs .nil hus
  | @statements seps' ts' us seps'' first more hseps' hfirst hmore hseps'' =>
      rcases seps' with _ | ⟨t, seps'⟩
      · -- two statements would stand side by side
        rw [List.nil_append, List.append_assoc] at hend
        obtain ⟨-, -, -, hstarts⟩ := hfirst.head (us ++ seps'' ++ rest)
        rw [endsStatement_of_startsStatement hstarts] at hend
        cases hend
      · have ht : t.kind.isSeparator = true := hseps' t List.mem_cons_self
        have hseps' : Separators seps' := fun u hu => hseps' u (List.mem_cons_of_mem _ hu)
        have := Star.cons (Separated.mk ht hseps' hfirst) hmore
        have := Program.statements hseps hs this hseps''
        simpa using this

/-- A program is derived by the tokens in front of the first end of input. -/
theorem readProgram_sound (ts : List Token) {p : Edict.Program} (hp : readProgram ts = .ok p) :
    ∃ rest, ReadsOff Derives.Program ts p rest ∧ (Token.peek rest).kind = .eof := by
  fun_induction readProgram ts generalizing p with
  | case1 ts hr =>
      cases hp
      refine ⟨[], ?_, rfl⟩
      have := ReadsOff.gaps ts
      rw [hr] at this
      exact this.map fun _ => .empty
  | case2 ts s rest hr =>
      cases hp
      refine ⟨⟨.eof, s⟩ :: rest, ?_, rfl⟩
      have := ReadsOff.gaps ts
      rw [hr] at this
      exact this.map fun _ => .empty
  | case3 ts t rest _ hr _ ih =>
      obtain ⟨s, hs, hp⟩ := ok_of_bind hp
      obtain ⟨⟨⟩, hend, hp⟩ := ok_of_bind hp
      obtain ⟨more, hmore, hp⟩ := ok_of_bind hp
      cases hp
      obtain ⟨after, ⟨us, hus, hue, hrest⟩, heof⟩ := ih s hmore
      refine ⟨after, ?_, heof⟩
      have hgaps := ReadsOff.gaps ts
      rw [hr] at hgaps
      have hmore : ReadsOff (fun vs _ => vs = us) s.rest () after := ⟨us, rfl, hue, hrest⟩
      refine (hgaps.cat ((readStatement_sound _ s hs).cat hmore)).map ?_
      rintro _ ⟨seps, _, hseps, ⟨vs, _, hvs, rfl, rfl⟩, rfl⟩
      refine Program.cons hseps hvs hus after ?_
      rw [← hrest]
      exact endsStatement_of_statementEnd hend

end Grammar

end Edict
