import Univdreams.Ud.Parser
import Univdreams.Ud.Tokens

/-!
# What a text spells and what a parser takes

Reading a printed text back has two halves. `SpellsAll t ks b` is about the lexer: the text `t` is
made of tokens of the kinds `ks`, wherever it stands. `Takes p ks F x` is about a parser: `p` takes
tokens of the kinds `ks` and returns `x`, when the token behind them is of a kind in `F`. A parser
may look at that token, but it does not take it. The rules of both follow the structure of texts and
of parsers.
-/

namespace Univdreams.Ud

open List Ud.Parser

open Text

variable {k : TokenKind} {ks' : List TokenKind}

/-! ## The kinds of the tokens of a text -/

/-- The text `t` is made of tokens of the kinds `ks`; if `b` is set, in front of a boundary only. -/
def SpellsAll (t : Text) (ks : List TokenKind) (b : Bool) : Prop :=
  ∀ pos rest, (b = true → Boundary rest) →
    ∃ us, Scans ⟨pos, t ++ rest⟩ us ⟨pos.after t, rest⟩ ∧ us.map Token.kind = ks

theorem Spells.all {t : Text} {b : Bool} (h : Spells t k b) : SpellsAll t [k] b :=
  fun pos rest hb => ⟨_, h pos rest hb, rfl⟩

namespace SpellsAll

variable {t t' : Text} {ks ks' : List TokenKind} {b b' : Bool}

/-- White space spells nothing. -/
theorem space {ws : Text} (hws : ∀ c ∈ ws, isWhitespace c = true) : SpellsAll ws [] false :=
  fun pos rest _ => ⟨[], scans_space hws pos rest, rfl⟩

theorem nil : SpellsAll [] [] false := space (by simp)

/-- Less is asked of a text in front of a boundary. -/
theorem weaken (h : SpellsAll t ks b) : SpellsAll t ks true := by
  intro pos rest hb
  exact h pos rest fun _ => hb rfl

/-- Two texts, one behind the other. -/
theorem append (h : SpellsAll t ks b) (h' : SpellsAll t' ks' b')
    (hb : b = true → t' ≠ [] ∧ Boundary t') : SpellsAll (t ++ t') (ks ++ ks') b' := by
  intro pos rest hrest
  have hbound : b = true → Boundary (t' ++ rest) := by
    intro hbt
    obtain ⟨hne, hbd⟩ := hb hbt
    obtain ⟨c, cs, rfl⟩ := exists_cons_of_ne_nil hne
    exact boundary_cons.2 (boundary_cons.1 hbd)
  obtain ⟨us, hus, hks⟩ := h pos (t' ++ rest) hbound
  obtain ⟨vs, hvs, hks'⟩ := h' (pos.after t) rest hrest
  refine ⟨us ++ vs, ?_, ?_⟩
  · rw [append_assoc, Pos.after_append]
    exact hus.trans hvs
  · rw [map_append, hks, hks']

/-- A character that is a token, in front of a text. -/
theorem cons {c : Char} (hc : singleKind c = some k) (h : SpellsAll t ks b) :
    SpellsAll (c :: t) (k :: ks) b :=
  (Spells.single hc).all.append h (by simp)

/-- A blank in front of a text. -/
theorem blank (h : SpellsAll t ks b) : SpellsAll (' ' :: t) ks b := by
  have hblank : SpellsAll [' '] [] false := by
    refine space fun c hc => ?_
    obtain rfl := mem_singleton.1 hc
    decide
  exact hblank.append h (by simp)

/-- A text between the states of the lexer in front of it and behind it. -/
theorem lexes (h : SpellsAll t ks b) {pos : Pos} {rest : Text} {toks : List Token}
    (hb : b = true → Boundary rest) (hrest : Lexes ⟨pos.after t, rest⟩ toks) :
    ∃ us, us.map Token.kind = ks ∧ Lexes ⟨pos, t ++ rest⟩ (us ++ toks) := by
  obtain ⟨us, hscans, hks⟩ := h pos rest hb
  exact ⟨us, hks, hscans.lexes hrest⟩

end SpellsAll

/-- A text always ends in a token, that for the end of the input. -/
theorem Lexes.ne_nil {l : Lexer} {toks : List Token} (h : Lexes l toks) : toks ≠ [] := by
  have hrun := h (l.rest.length + 1) (Nat.lt_succ_self _)
  rintro rfl
  unfold Lexer.tokenizeLoop at hrun
  cases htok : l.nextToken with
  | error e =>
    rw [htok] at hrun
    cases hrun
  | ok r =>
    simp only [htok, bind, Except.bind, pure, Except.pure] at hrun
    split at hrun
    · cases hrun
    · split at hrun <;> cases hrun

/-! ## The tokens that a parser takes -/

variable {α β : Type}

/-- The first kind behind a place where the kinds `ks` stand, and then one in `F`. -/
def Starts (ks : List TokenKind) (F : TokenKind → Prop) (k : TokenKind) : Prop :=
  match ks with
  | [] => F k
  | k' :: _ => k = k'

/-- The parser `p` takes tokens of the kinds `ks` and returns `x` if the next token is of a kind in
`F`. -/
def Takes (p : Parser α) (ks : List TokenKind) (F : TokenKind → Prop) (x : α) : Prop :=
  ∀ prev us tok toks, us.map Token.kind = ks → F tok.kind →
    ∃ prev', p ⟨prev, us ++ tok :: toks⟩ = .ok (x, ⟨prev', tok :: toks⟩)

namespace Takes

variable {p : Parser α} {ks : List TokenKind} {F : TokenKind → Prop} {x : α}

theorem pure : Takes (Pure.pure x : Parser α) [] F x := by
  intro prev us tok toks hus _
  obtain rfl := map_eq_nil_iff.1 hus
  exact ⟨prev, rfl⟩

/-- One parser behind the other. -/
theorem bind {f : α → Parser β} {y : β} {G : TokenKind → Prop}
    (h : Takes p ks F x) (h' : Takes (f x) ks' G y) (hF : ∀ k, Starts ks' G k → F k) :
    Takes (p >>= f) (ks ++ ks') G y := by
  intro prev us tok toks hus hG
  obtain ⟨us1, us2, rfl, hus1, hus2⟩ := map_eq_append_iff.1 hus
  -- The first parser sees the first token of the second, or the one behind both.
  obtain ⟨t, ts, hts, ht⟩ : ∃ t ts, us2 ++ tok :: toks = t :: ts ∧ F t.kind := by
    cases us2 with
    | nil =>
      obtain rfl : [] = ks' := hus2
      exact ⟨tok, toks, rfl, hF _ hG⟩
    | cons u us2 =>
      obtain rfl : u.kind :: us2.map Token.kind = ks' := hus2
      exact ⟨u, us2 ++ tok :: toks, rfl, hF _ rfl⟩
  obtain ⟨prev1, hp⟩ := h prev us1 t ts hus1 ht
  obtain ⟨prev2, hf⟩ := h' prev1 us2 tok toks hus2 hG
  refine ⟨prev2, bind_eq_ok.2 ⟨x, ⟨prev1, us2 ++ tok :: toks⟩, ?_, hf⟩⟩
  rw [append_assoc, hts]
  exact hp

/-- A parser that takes one token and does not look at what is behind it. -/
theorem one_bind {f : α → Parser β} {y : β}
    {G : TokenKind → Prop} (h : Takes p [k] (fun _ => True) x) (h' : Takes (f x) ks' G y) :
    Takes (p >>= f) (k :: ks') G y := h.bind h' fun _ _ => trivial

/-- A value that is made of what a parser returns. -/
theorem map (h : Takes p ks F x) (g : α → β) :
    Takes (p >>= fun a => Pure.pure (g a)) ks F (g x) := by
  have hbind := h.bind (f := fun a => Pure.pure (g a)) (Takes.pure (F := F)) fun _ hk => hk
  rwa [append_nil] at hbind

/-- A parser that looks at the first token it takes. -/
theorem peek {f : Token → Parser β} {y : β}
    (h : ∀ tok : Token, tok.kind = k → Takes (f tok) (k :: ks') F y) :
    Takes (peek >>= f) (k :: ks') F y := by
  intro prev us tok toks hus hF
  cases us with
  | nil => cases hus
  | cons u us =>
    obtain ⟨prev', hf⟩ := h u (List.cons.inj hus).1 prev (u :: us) tok toks hus hF
    exact ⟨prev', bind_eq_ok.2 ⟨u, _, rfl, hf⟩⟩

/-- A parser that looks at the token behind it. -/
theorem peek_behind {f : Token → Parser β} {y : β}
    (h : ∀ tok : Token, F tok.kind → Takes (f tok) [] F y) : Takes (Parser.peek >>= f) [] F y := by
  intro prev us tok toks hus hF
  obtain rfl := map_eq_nil_iff.1 hus
  obtain ⟨prev', hf⟩ := h tok hF prev [] tok toks rfl hF
  exact ⟨prev', Parser.bind_eq_ok.2 ⟨tok, _, rfl, hf⟩⟩

/-- A parser that takes one token, which it is given. -/
theorem of_bump {f : Token → Parser α} (h : ∀ tok : Token, tok.kind = k →
      ∀ c, f tok c = (Parser.bump >>= fun _ => Pure.pure x : Parser α) c) :
    Takes (Parser.peek >>= f) [k] F x := by
  refine peek fun u hu => ?_
  intro prev us tok toks hus _
  obtain ⟨v, rfl, -⟩ := map_eq_singleton_iff.1 hus
  exact ⟨v.line, h u hu _⟩

/-- A parser that takes one token of any kind first. -/
theorem bump_bind (h : Takes p ks F x) : Takes (bump >>= fun _ => p) (k :: ks) F x := by
  intro prev us tok toks hus hF
  cases us with
  | nil => cases hus
  | cons u us =>
    obtain ⟨prev', hp⟩ := h u.line us tok toks (List.cons.inj hus).2 hF
    refine ⟨prev', bind_eq_ok.2 ⟨u, ⟨u.line, us ++ tok :: toks⟩, ?_, hp⟩⟩
    cases us <;> rfl

theorem expect (k : TokenKind) (label : String) : Takes (Parser.expect k label) [k] F () :=
  of_bump fun tok htok c => by rw [if_pos htok]

theorem expectIdent (label : String) (name : Text) :
    Takes (Parser.expectIdent label) [.ident name] F name :=
  of_bump fun tok htok c => by rw [htok]

theorem expectString (label : String) (s : Text) :
    Takes (Parser.expectString label) [.string s] F s :=
  of_bump fun tok htok c => by rw [htok]

theorem expectInt (label : String) (n : UInt64) : Takes (Parser.expectInt label) [.int n] F n :=
  of_bump fun tok htok c => by rw [htok]

theorem eatKind (k : TokenKind) : Takes (Parser.eatKind k) [k] F true :=
  of_bump fun tok htok c => by rw [if_pos htok]

/-- A token of another kind is not eaten. -/
theorem not_eatKind (hF : ∀ k', F k' → k' ≠ k) : Takes (Parser.eatKind k) [] F false :=
  peek_behind fun tok htok => by
    rw [if_neg (hF _ htok)]
    exact pure

/-- A loop has a round for every token. -/
theorem bounded {loop : ℕ → Parser α} (h : ∀ n, ks.length < n → Takes (loop n) ks F x) :
    Takes (bounded loop) ks F x := by
  intro prev us tok toks hus hF
  have hlen : us.length = ks.length := by rw [← hus, length_map]
  refine h _ ?_ prev us tok toks hus hF
  rw [length_append, length_cons]
  omega

end Takes

/-! ## Names in brackets -/

/-- Names with commas between them. -/
def nameKinds : List Text → List TokenKind
  | [] => []
  | [name] => [.ident name]
  | name :: next :: names => .ident name :: .comma :: nameKinds (next :: names)

/-- A list of names is taken up to its bracket. -/
theorem takes_commaLoop_names (label : String) (name : Text) (names : List Text) (n : ℕ)
    (hn : (name :: names).length ≤ n) :
    Takes (Parser.commaLoop (Parser.expectIdent label) (· == .rBracket) n)
      (nameKinds (name :: names)) (· = .rBracket) (name :: names) := by
  induction names generalizing name n with
  | nil =>
    obtain ⟨m, rfl⟩ : ∃ m, n = m + 1 := ⟨n - 1, by simp at hn; omega⟩
    refine (Takes.expectIdent label name).one_bind ?_
    exact (Takes.not_eatKind (by rintro _ rfl; decide)).bind Takes.pure fun _ h => h
  | cons next names ih =>
    obtain ⟨m, rfl⟩ : ∃ m, n = m + 1 := ⟨n - 1, by simp at hn; omega⟩
    refine (Takes.expectIdent label name).one_bind ?_
    refine (Takes.eatKind .comma).one_bind ?_
    -- Behind the comma stands the next name.
    have hnext := (ih next m (by simpa using hn)).map (name :: ·)
    obtain ⟨ks, hks⟩ : ∃ ks, nameKinds (next :: names) = .ident next :: ks := by
      cases names <;> exact ⟨_, rfl⟩
    rw [hks] at hnext ⊢
    refine Takes.peek fun tok htok => ?_
    rw [htok]
    exact hnext

/-- A list of registers. -/
theorem takes_parseRegisterList {F : TokenKind → Prop} {names : List Text} (hne : names ≠ []) :
    Takes parseRegisterList (.lBracket :: (nameKinds names ++ [.rBracket])) F names := by
  obtain ⟨name, names, rfl⟩ := exists_cons_of_ne_nil hne
  refine (Takes.expect .lBracket _).one_bind ?_
  have hlist : Takes (bracketItems (expectIdent "register name"))
      (nameKinds (name :: names)) (· = .rBracket) (name :: names) := by
    have hloop := Takes.bounded fun n (hn : (nameKinds (name :: names)).length < n) =>
      takes_commaLoop_names "register name" name names n (by
        have : ∀ name names, (name :: names).length ≤ (nameKinds (name :: names)).length := by
          intro name names
          induction names generalizing name with
          | nil => exact le_rfl
          | cons next names ih =>
            have := ih next
            simp only [nameKinds, length_cons] at this ⊢
            omega
        have := this name names
        omega)
    obtain ⟨ks, hks⟩ : ∃ ks, nameKinds (name :: names) = .ident name :: ks := by
      cases names <;> exact ⟨_, rfl⟩
    rw [hks] at hloop ⊢
    refine Takes.peek fun tok htok => ?_
    rw [htok]
    exact hloop
  refine hlist.bind ?_ fun _ h => h
  exact (Takes.expect .rBracket _).one_bind .pure

/-! ## Types -/

/-- What the printer writes for a type is read back as that type, wherever it stands. -/
theorem parseType_emitType (t : Ast.Ty) :
    ∃ ks, SpellsAll (emitType t) ks true ∧ ∀ F, Takes parseType ks F t := by
  suffices h : ∃ ks, SpellsAll (emitType t) ks true ∧
      ∀ n F, ks.length < n → Takes (typeLoop n) ks F t by
    obtain ⟨ks, hks, ht⟩ := h
    exact ⟨ks, hks, fun F => Takes.bounded fun n => ht n F⟩
  induction t with
  | pointer t ih =>
    obtain ⟨ks, hks, ht⟩ := ih
    have hclose : SpellsAll ['>'] [.gt] false := (Spells.single rfl).all
    have hinner := (hks.append hclose fun _ => ⟨by simp, boundary_cons.2 (by decide)⟩).cons
      (c := '<') rfl
    have hname : SpellsAll "ptr".toList [.ident "ptr".toList] true := (Spells.ident (by decide)).all
    have htext := hname.append hinner fun _ => ⟨by simp, boundary_cons.2 (by decide)⟩
    refine ⟨_, htext.weaken, fun | n + 1, F, hn => ?_⟩
    refine Takes.peek fun tok _ => (Takes.expectIdent _ _).one_bind ((Takes.expect _ _).one_bind ?_)
    have hlen : ks.length < n := by
      simp at hn
      omega
    exact (ht n (fun _ => True) hlen).bind ((Takes.expect _ _).one_bind .pure) fun _ _ => trivial
  | _ =>
    refine ⟨[.ident _], (Spells.ident (by decide)).all, fun | n + 1, F, _ => ?_⟩
    exact Takes.peek fun tok _ => (Takes.expectIdent _ _).one_bind .pure

end Univdreams.Ud
