import Univdreams.Ud.ParseStmt

/-!
# The places where statements stand

A list of statements stands between braces: in a function, behind `else`, in a loop, in an arm
`@then`, or directly in an `if`. The first four are read by `parse_stmt_list_until_rbrace` and the
last by `parse_if_body_with_optional_arms`, which has a dispatcher of its own,
`parse_stmt_list_one`. The two dispatchers agree on every statement but `switch`.
-/

namespace Univdreams.Ud

open Ast Arch List

namespace Parser

/-- The places where a list of statements stands. -/
inductive StmtContext where
  | functionBody
  | elseBody
  | loopBody
  | thenArm
  /-- Between the braces of an `if`, outside of its arms. -/
  | ifBody
  deriving DecidableEq, Repr

/-- `parse_if_body_with_optional_arms`. -/
def parseIfBodyWithOptionalArms (b : Build) (bits : ℕ) : Parser IfBody :=
  bounded fun n => ifBodyLoop b bits n [] none none

/-- Behind the opening brace, the text up to the closing one is read as the statements `ss`. In an
`if` they are its `then` body, and there are no arms. -/
def StmtContext.Reads (b : Build) (bits : ℕ) (ctx : StmtContext) (c : Cursor) (ss : List Stmt)
    (c' : Cursor) : Prop :=
  match ctx with
  | .ifBody => parseIfBodyWithOptionalArms b bits c = .ok (([], ss, none), c')
  | _ => parseStmtListUntilRbrace b bits c = .ok (ss, c')

/-- A `switch` over a jump table. -/
def IsSwitch : Stmt → Bool
  | .switch .. => true
  | _ => false

/-! ## What a parser can return -/

/-- Whenever the parser succeeds, it returns a statement that is not a `switch`. -/
def NoSwitch (p : Parser Stmt) : Prop :=
  ∀ c s c', p c = .ok (s, c') → ¬ IsSwitch s

namespace NoSwitch

variable {α : Type} {p q : Parser Stmt}

theorem pure {s : Stmt} (h : IsSwitch s = false) : NoSwitch (Pure.pure s) := by
  rintro c s' c' h'
  cases h'
  simp [h]

theorem fail (e : ParseError) : NoSwitch (Parser.fail e) := by
  rintro c s c' h
  cases h

theorem failAt (label : String) (got : Text) (tok : Token) :
    NoSwitch (Parser.failAt label got tok) :=
  fail _

theorem bind {r : Parser α} {f : α → Parser Stmt} (h : ∀ a, NoSwitch (f a)) :
    NoSwitch (r >>= f) := by
  rintro c s c' h'
  obtain ⟨a, c1, -, hf⟩ := bind_eq_ok.1 h'
  exact h a c1 s c' hf

theorem ite {P : Prop} [Decidable P] (hp : NoSwitch p) (hq : NoSwitch q) :
    NoSwitch (if P then p else q) := by
  split
  · exact hp
  · exact hq

end NoSwitch

/-- A call is not a `switch`, and neither is an assignment. -/
theorem noSwitch_parseCallOrMoveStmt : NoSwitch parseCallOrMoveStmt := by
  have hcall : NoSwitch parseCallStmt :=
    .bind fun _ => .bind fun _ => .bind fun _ => .bind fun _ => .bind fun _ => .bind fun _ =>
      .pure rfl
  have hmove : NoSwitch parseMoveStmt := by
    refine .bind fun tok => .bind fun toks => ?_
    dsimp only
    split
    next => exact .failAt _ _ _
    next =>
      refine .bind fun moved => .pure ?_
      split <;> rfl
  exact .bind fun toks => .ite hcall hmove

/-- An `if` is not a `switch`, whether it jumps, returns or has a body. -/
theorem noSwitch_parseIfStmt (b : Build) (list : Parser (List Stmt)) (ifBody : Parser IfBody) :
    NoSwitch (parseIfStmt b list ifBody) := by
  have hreturn : ∀ cond, NoSwitch (parseIfReturnTail cond) := by
    intro cond
    refine .bind fun _ => .bind fun _ => .bind fun _ => .bind fun found => .bind fun _ => ?_
    split
    · exact .pure rfl
    · exact .failAt _ _ _
  have hgoto : ∀ cond, NoSwitch (parseIfGotoTail cond) := fun cond =>
    .bind fun _ => .bind fun _ => .bind fun _ => .bind fun _ => .bind fun _ => .pure rfl
  have hbranch : ∀ cond, NoSwitch (parseIfBranchTail b list ifBody cond) := fun cond =>
    .bind fun _ => .bind fun _ => .bind fun _ => .bind fun _ => .bind fun _ => .bind fun _ =>
      .bind fun _ => .pure rfl
  exact .bind fun _ => .bind fun _ => .bind fun _ => .bind fun _ => .bind fun _ =>
    .ite (hreturn _) (.ite (hgoto _) (hbranch _))

/-- None of the keywords that both dispatchers know starts a `switch`. -/
theorem noSwitch_keywordStmts (b : Build) (list : Parser (List Stmt)) (ifBody : Parser IfBody) :
    ∀ k ∈ keywordStmts b list ifBody false, NoSwitch k.2 := by
  intro k hk
  simp only [keywordStmts, Bool.false_eq_true, if_false, append_nil, mem_cons,
    not_mem_nil, or_false] at hk
  rcases hk with rfl | rfl | rfl | rfl | rfl | rfl
  · exact noSwitch_parseIfStmt b list ifBody
  · exact .bind fun _ => .bind fun _ => .bind fun _ => .bind fun _ => .bind fun _ => .bind fun _ =>
      .bind fun _ => .pure rfl
  · exact .bind fun _ => .bind fun _ => .bind fun _ => .bind fun _ => .bind fun _ => .bind fun _ =>
      .bind fun _ => .bind fun _ => .bind fun _ => .bind fun _ => .bind fun _ => .pure rfl
  · refine .bind fun _ => .bind fun _ => .bind fun _ => .bind fun _ => ?_
    split
    · exact .ite (.bind fun _ => .bind fun _ => .bind fun _ => .bind fun _ => .bind fun _ =>
        .pure rfl) (.failAt _ _ _)
    · exact .failAt _ _ _
  · exact .bind fun _ => .bind fun _ => .bind fun _ => .bind fun _ => .pure rfl
  · refine .bind fun _ => .bind fun _ => .bind fun _ => .bind fun _ => .bind fun _ => .pure ?_
    split <;> rfl

/-- No directive is a `switch`. -/
theorem noSwitch_stmtDirectives (bits : ℕ) (list : Parser (List Stmt)) (dirTok : Token) :
    ∀ d ∈ stmtDirectives bits list dirTok, NoSwitch d.2 := by
  intro d hd
  simp only [stmtDirectives, mem_cons, not_mem_nil, or_false] at hd
  rcases hd with rfl | rfl | rfl | rfl | rfl | rfl | rfl | rfl | rfl | rfl | rfl | rfl | rfl | rfl |
    rfl | rfl | rfl | rfl
  -- Each of them runs parsers one behind the other and ends with a statement of its own or fails.
  all_goals
    repeat' first
      | exact .pure rfl
      | exact .fail _
      | exact .failAt _ _ _
      | refine .ite ?_ ?_
      | refine .bind fun _ => ?_
      | split

/-! ## One statement -/

section Dispatch

variable {b : Build} {bits : ℕ} {list : Parser (List Stmt)} {ifBody : Parser IfBody}
  {c c' : Cursor} {s : Stmt}

/-- What is parsed as a switch is one. -/
theorem isSwitch_parseSwitchStmt (h : parseSwitchStmt c = .ok (s, c')) : IsSwitch s := by
  obtain ⟨tok, c₁, -, h⟩ := bind_eq_ok.1 h
  obtain ⟨-, c₂, -, h⟩ := bind_eq_ok.1 h
  obtain ⟨selector, c₃, -, h⟩ := bind_eq_ok.1 h
  obtain ⟨-, c₄, -, h⟩ := bind_eq_ok.1 h
  obtain ⟨attrs, c₅, -, h⟩ := bind_eq_ok.1 h
  revert h
  generalize (List.foldl _ _ attrs : Option Text) = dispatch
  generalize (List.foldl _ _ attrs : Option UInt64) = tableVa
  intro h
  cases dispatch with
  | none => cases h
  | some dispatch =>
    cases tableVa with
    | none => cases h
    | some table_va =>
      obtain ⟨-, c₆, -, h⟩ := bind_eq_ok.1 h
      obtain ⟨found, c₇, -, h⟩ := bind_eq_ok.1 h
      obtain ⟨-, c₈, -, h⟩ := bind_eq_ok.1 h
      cases h
      rfl

/-- The dispatchers know the same keywords, up to `switch`. -/
theorem parseIdentStmt_true_eq {name : Text} (hname : name ≠ "switch".toList) :
    parseIdentStmt b list ifBody true name = parseIdentStmt b list ifBody false name := by
  have hfind : (keywordStmts b list ifBody true).find? (fun k => k.1.toList = name) =
      (keywordStmts b list ifBody false).find? fun k => k.1.toList = name := by
    unfold keywordStmts
    rw [List.find?_append, List.find?_append, if_pos rfl, if_neg (by decide)]
    congr 1
    exact List.find?_cons_of_neg (by simpa using Ne.symm hname)
  unfold parseIdentStmt
  rw [hfind]

theorem parseIdentStmt_switch :
    parseIdentStmt b list ifBody true "switch".toList = parseSwitchStmt := by
  simp [parseIdentStmt, keywordStmts]

/-- In an `if` the name `switch` starts a call or an assignment. -/
theorem noSwitch_parseIdentStmt_false (name : Text) :
    NoSwitch (parseIdentStmt b list ifBody false name) := by
  unfold parseIdentStmt
  split
  next k hk => exact noSwitch_keywordStmts b list ifBody k (List.mem_of_find?_eq_some hk)
  next =>
    have hlabel : NoSwitch parseLabelStmt := .bind fun _ => .bind fun _ => .pure rfl
    exact .bind fun next => .ite hlabel noSwitch_parseCallOrMoveStmt

/-- The dispatcher of an `if` does not know a `switch`. -/
theorem noSwitch_parseStmt_false : NoSwitch (parseStmt b bits list ifBody false) := by
  refine .bind fun tok => ?_
  split
  · exact .fail _
  · exact .bind fun _ => .pure rfl
  · refine .bind fun _ => .bind fun dirTok => .bind fun name => ?_
    unfold parseStmtAtDirective
    split
    next d hd => exact noSwitch_stmtDirectives bits list dirTok d (List.mem_of_find?_eq_some hd)
    next => exact .fail _
  · exact noSwitch_parseIdentStmt_false _
  · exact noSwitch_parseCallOrMoveStmt
  · exact noSwitch_parseCallOrMoveStmt
  · exact noSwitch_parseCallOrMoveStmt
  · exact .failAt _ _ _

/-- The statement that a name starts is the same for both dispatchers unless it is a `switch`. -/
theorem parseIdentStmt_false_of_not_isSwitch {name : Text}
    (h : parseIdentStmt b list ifBody true name c = .ok (s, c')) (hs : ¬ IsSwitch s) :
    parseIdentStmt b list ifBody false name c = .ok (s, c') := by
  by_cases hname : name = "switch".toList
  · subst hname
    rw [parseIdentStmt_switch] at h
    exact absurd (isSwitch_parseSwitchStmt h) hs
  · rwa [← parseIdentStmt_true_eq hname]

/-- The dispatcher of an `if` takes a statement as that of the other places does, unless it is a
`switch`. -/
theorem parseStmt_false_iff (h : parseStmt b bits list ifBody true c = .ok (s, c')) :
    parseStmt b bits list ifBody false c = .ok (s, c') ↔ ¬ IsSwitch s := by
  refine ⟨noSwitch_parseStmt_false c s c', fun hs => ?_⟩
  obtain ⟨tok, c1, htok, h⟩ := bind_eq_ok.1 h
  refine bind_eq_ok.2 ⟨tok, c1, htok, ?_⟩
  revert h
  cases tok.kind with
  | ident name => exact fun h => parseIdentStmt_false_of_not_isSwitch h hs
  | _ => exact id

/-- An arm is recognised by its first two tokens. -/
theorem armHere_eq_none {tok : Token} (hhead : c.rest.head? = some tok)
    (h : tok.kind = .atSign → ∀ name, c.rest[1]?.map Token.kind = some (.ident name) →
      ¬ (name = "then".toList ∨ name = "else".toList)) : armHere c = .ok (none, c) := by
  refine bind_eq_ok.2 ⟨tok, c, peek_eq_ok.2 ⟨hhead, rfl⟩, bind_eq_ok.2 ⟨_, c, rfl, ?_⟩⟩
  show Except.ok _ = _
  congr 2
  split
  next name hat hname => exact if_neg (h hat name hname)
  next => rfl

/-- No directive has the name of an arm. -/
theorem parseStmtAtDirective_arm {name : Text} (h : name = "then".toList ∨ name = "else".toList)
    (dirTok : Token) (c : Cursor) :
    parseStmtAtDirective bits list name dirTok c =
      .error (.err (.unknownDirective name dirTok.line dirTok.col)) := by
  have hfind : (stmtDirectives bits list dirTok).find? (fun d => d.1.toList = name) = none := by
    rcases h with rfl | rfl <;> simp [stmtDirectives]
  unfold parseStmtAtDirective
  rw [hfind]
  rfl

/-- Where an arm `@then` or `@else` starts, no statement does. -/
theorem armHere_of_parseStmt {allowSwitch : Bool}
    (h : parseStmt b bits list ifBody allowSwitch c = .ok (s, c')) : armHere c = .ok (none, c) := by
  obtain ⟨tok, c1, htok, hstmt⟩ := bind_eq_ok.1 h
  obtain ⟨hhead, rfl⟩ := peek_eq_ok.1 htok
  refine armHere_eq_none hhead fun hat name hname harm => ?_
  rw [hat] at hstmt
  obtain ⟨sign, c2, hbump, hstmt⟩ := bind_eq_ok.1 hstmt
  obtain ⟨dirTok, c3, hdir, hstmt⟩ := bind_eq_ok.1 hstmt
  obtain ⟨dirName, c4, hident, hstmt⟩ := bind_eq_ok.1 hstmt
  -- The name behind the sign is the one that the directive is looked up by.
  have hdirName : dirName = name := by
    obtain ⟨prev, _ | ⟨t0, _ | ⟨t1, ts⟩⟩⟩ := c1
    · simp at hname
    · simp at hname
    cases hbump
    cases hdir
    obtain ⟨tok', c5, htok', hident⟩ := bind_eq_ok.1 hident
    cases htok'
    have hkind : dirTok.kind = .ident name := by simpa using hname
    rw [hkind] at hident
    obtain ⟨-, c6, -, hident⟩ := bind_eq_ok.1 hident
    cases hident
    rfl
  rw [hdirName, parseStmtAtDirective_arm harm] at hstmt
  cases hstmt

end Dispatch

/-! ## Lists of statements -/

variable {b : Build} {bits : ℕ}

/-- The statements that were read before stay at the front of the body that they end up in. -/
theorem isPrefix_ifBodyLoop {n : ℕ} {accumulated : List Stmt}
    {thenBody elseBody : Option (List Stmt)}
    {c c' : Cursor} {body : IfBody}
    (h : ifBodyLoop b bits n accumulated thenBody elseBody c = .ok (body, c')) :
    accumulated <+: body.1 ∨ body.1 = [] ∧ accumulated <+: body.2.1 := by
  induction n generalizing accumulated thenBody elseBody c with
  | zero => cases h
  | succ n ih =>
    obtain ⟨arm, c1, -, h⟩ := bind_eq_ok.1 h
    cases arm with
    | some name =>
      obtain ⟨-, c2, -, h⟩ := bind_eq_ok.1 h
      obtain ⟨-, c3, -, h⟩ := bind_eq_ok.1 h
      obtain ⟨arm, c4, -, h⟩ := bind_eq_ok.1 h
      split at h <;> exact ih h
    | none =>
      obtain ⟨tok, c2, -, h⟩ := bind_eq_ok.1 h
      split at h
      · cases h
        cases thenBody with
        | none => exact .inr ⟨rfl, prefix_rfl⟩
        | some thenBody => exact .inl prefix_rfl
      obtain ⟨s, c3, -, h⟩ := bind_eq_ok.1 h
      have hprefix := prefix_append accumulated [s]
      exact (ih h).imp hprefix.trans (And.imp_right hprefix.trans)

/-- From the same cursor, the body of an `if` is read as the list that other places read exactly if
it has no `switch`. -/
theorem ifBodyLoop_iff {n : ℕ} {accumulated ss : List Stmt} {c c' : Cursor}
    (h : stmtList b bits n c = .ok (ss, c')) :
    ifBodyLoop b bits n accumulated none none c = .ok (([], accumulated ++ ss, none), c') ↔
      ∀ s ∈ ss, ¬ IsSwitch s := by
  induction n generalizing accumulated ss c with
  | zero => cases h
  | succ n ih =>
    obtain ⟨tok, c1, htok, hrest⟩ := bind_eq_ok.1 h
    obtain ⟨hhead, rfl⟩ := peek_eq_ok.1 htok
    split at hrest
    next hbrace =>
      have harm : armHere c1 = .ok (none, c1) :=
        armHere_eq_none hhead fun hat => by simp [hbrace] at hat
      cases hrest
      refine iff_of_true (bind_eq_ok.2 ⟨none, _, harm, bind_eq_ok.2 ⟨tok, _, htok, ?_⟩⟩) (by simp)
      rw [if_pos hbrace, append_nil]
      rfl
    next hbrace =>
      obtain ⟨s, c2, hs, hrest⟩ := bind_eq_ok.1 hrest
      obtain ⟨ss', c3, hss, hrest⟩ := bind_eq_ok.1 hrest
      cases hrest
      have harm := armHere_of_parseStmt hs
      rw [forall_mem_cons, ← parseStmt_false_iff hs]
      constructor
      · intro hbody
        obtain ⟨arm, c4, harm', hbody⟩ := bind_eq_ok.1 hbody
        rw [harm] at harm'
        cases harm'
        obtain ⟨tok', c4, htok', hbody⟩ := bind_eq_ok.1 hbody
        rw [htok] at htok'
        cases htok'
        rw [if_neg hbrace] at hbody
        obtain ⟨s', c4, hs', hbody⟩ := bind_eq_ok.1 hbody
        -- What was read first stays first, so the two dispatchers read the same statement here.
        have hfirst : s' = s := by
          obtain hpre | ⟨-, hpre⟩ := isPrefix_ifBodyLoop hbody
          · simp at hpre
          · rw [prefix_append_right_inj, cons_prefix_cons] at hpre
            exact hpre.1
        subst hfirst
        have hsame := (parseStmt_false_iff hs).2 (noSwitch_parseStmt_false _ _ _ hs')
        rw [hsame] at hs'
        cases hs'
        have hrest := @ih (accumulated ++ [s']) ss' c2 hss
        rw [append_assoc] at hrest
        exact ⟨hsame, hrest.1 hbody⟩
      · rintro ⟨hs', hss'⟩
        refine bind_eq_ok.2 ⟨none, c1, harm, bind_eq_ok.2 ⟨tok, c1, htok, ?_⟩⟩
        rw [if_neg hbrace]
        refine bind_eq_ok.2 ⟨s, c2, hs', ?_⟩
        have hrest := (@ih (accumulated ++ [s]) ss' c2 hss).2 hss'
        rwa [append_assoc] at hrest

/-- Directly in an `if`, statements of a function are read alike exactly if none of them is a
`switch`. -/
theorem StmtContext.reads_ifBody_iff {c c' : Cursor} {ss : List Stmt}
    (h : StmtContext.functionBody.Reads b bits c ss c') :
    StmtContext.ifBody.Reads b bits c ss c' ↔ ∀ s ∈ ss, ¬ IsSwitch s :=
  @ifBodyLoop_iff b bits _ [] ss c c' h

/-- A text that is read as statements in a function is read as the same statements in every other
place, exactly if the place is not directly in an `if` or none of them is a `switch`. -/
theorem StmtContext.reads_iff {ctx : StmtContext} {c c' : Cursor} {ss : List Stmt}
    (h : StmtContext.functionBody.Reads b bits c ss c') :
    ctx.Reads b bits c ss c' ↔ (ctx = .ifBody → ∀ s ∈ ss, ¬ IsSwitch s) := by
  cases ctx with
  | ifBody => exact (reads_ifBody_iff h).trans ⟨fun hss _ => hss, fun hss => hss rfl⟩
  | _ => exact iff_of_true h (by simp)

/-- What is left to read behind an opening brace, in front of a text. -/
def cursorOf (text : Text) : Cursor :=
  match tokenize text with
  | .ok toks => ⟨0, toks⟩
  | .error _ => ⟨0, []⟩

/-- Whether a text in a function, up to the closing brace, is one statement of the given kind. -/
def isOne (kind : Stmt → Bool) (text : Text) : Bool :=
  match parseStmtListUntilRbrace ⟨false, fun _ => false⟩ 64 (cursorOf text) with
  | .ok ([s], _) => kind s
  | _ => false

theorem exists_of_isOne {kind : Stmt → Bool} {text : Text} (h : isOne kind text) :
    ∃ c s c', StmtContext.functionBody.Reads ⟨false, fun _ => false⟩ 64 c [s] c' ∧ kind s := by
  unfold isOne at h
  split at h
  next s c' hlist => exact ⟨cursorOf text, s, c', hlist, h⟩
  next => cases h

/-- A jump is read directly in an `if` as it is in a function. -/
theorem StmtContext.reads_iff_goto :
    ∃ c s c', StmtContext.ifBody.Reads ⟨false, fun _ => false⟩ 64 c [s] c' := by
  have hgoto : isOne (!IsSwitch ·) "goto label_10; \x7d".toList := by decide +kernel
  obtain ⟨c, s, c', hlist, hs⟩ := exists_of_isOne hgoto
  exact ⟨c, s, c', (StmtContext.reads_iff hlist).2 fun _ => by simpa using hs⟩

/-- A `switch` over a jump table with one case, and the closing brace of the place where it
stands. -/
def jumpTableSwitch : Text :=
  "switch (eax) #[dispatch=\"jmp\", table_va=16] \x7b case 0: goto label_10; \x7d \x7d".toList

/-- Directly in an `if` a `switch` is not accepted. -/
theorem StmtContext.not_reads_switch :
    ∃ (b : Build) (bits : ℕ) (ctx : StmtContext) (c : Cursor) (s : Stmt) (c' : Cursor),
      StmtContext.functionBody.Reads b bits c [s] c' ∧ ¬ ctx.Reads b bits c [s] c' := by
  have hswitch : isOne IsSwitch jumpTableSwitch := by decide +kernel
  obtain ⟨c, s, c', hlist, hs⟩ := exists_of_isOne hswitch
  refine ⟨_, _, .ifBody, c, s, c', hlist, fun hbody => ?_⟩
  exact (reads_ifBody_iff hlist).1 hbody s List.mem_cons_self hs

end Parser

end Univdreams.Ud
