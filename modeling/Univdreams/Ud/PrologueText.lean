import Univdreams.Arch.PrologueDecode
import Univdreams.Ud.ParseStmt
import Univdreams.Ud.Takes

/-!
# Prologues and epilogues as text

A prologue or an epilogue is printed by its parameters, without bytes, when these encode to its
bytes. The text leaves out the parameters that have their default, and the parser encodes the bytes
again from what it reads. So three forms have to agree: the bytes, the parameters and the text.

The parameters of a directive are a list of fields behind commas. `ParamField` is one of them: its
text, the kinds of its tokens, and what it sets in the parameters that are read so far. The loops of
the parser over both kinds of parameters are instances of one rule, `takes_paramsLoop`.
-/

namespace Univdreams.Ud

open Ast Arch.X86 List Ud.Parser Spells Takes
open Text

variable {p : PrologueParams} {e : EpilogueParams} {kw : String} {names : List Text}
  {bits : CodecBits} {label : String}

/-! ## The parameters of the codec and of the syntax tree -/

/-- The parameters in the syntax tree, as `decode_prologue_params` makes them. -/
def prologueOfCodec (p : StructuredPrologue) : PrologueParams :=
  ⟨p.saves, p.saves_after, p.frame, UInt32.ofNat p.sub_esp, p.cf_protect, p.frame_alt_encoding⟩

/-- `prologue_to_codec`. -/
def prologueToCodec (p : PrologueParams) : StructuredPrologue :=
  ⟨p.saves, p.saves_after, p.frame, p.sub_esp.toNat, p.cf_protect, p.frame_alt⟩

/-- The parameters in the syntax tree, as `decode_epilogue_params` makes them. -/
def epilogueOfCodec (e : StructuredEpilogue) : EpilogueParams :=
  ⟨e.saves, e.leave, e.pop_frame, UInt32.ofNat e.add_esp, UInt16.ofNat e.ret_imm⟩

/-- `epilogue_to_codec`. -/
def epilogueToCodec (e : EpilogueParams) : StructuredEpilogue :=
  ⟨e.saves, e.leave, e.pop_frame, e.add_esp.toNat, e.ret_imm.toNat⟩

theorem prologueToCodec_ofCodec {p : StructuredPrologue} (h : p.Decoded bits) :
    prologueToCodec (prologueOfCodec p) = p := by
  have hsub : (UInt32.ofNat p.sub_esp).toNat = p.sub_esp := UInt32.toNat_ofNat_of_lt' h.sub
  rw [prologueToCodec, prologueOfCodec, hsub]

theorem epilogueToCodec_ofCodec {e : StructuredEpilogue} (h : e.Decoded bits) :
    epilogueToCodec (epilogueOfCodec e) = e := by
  have hadd : (UInt32.ofNat e.add_esp).toNat = e.add_esp := UInt32.toNat_ofNat_of_lt' h.add
  have hret : (UInt16.ofNat e.ret_imm).toNat = e.ret_imm := UInt16.toNat_ofNat_of_lt' h.ret
  rw [epilogueToCodec, epilogueOfCodec, hadd, hret]

/-! ## Fields -/

/-- One parameter in the text of a directive. -/
structure ParamField (π : Type) where
  /-- Its text. -/
  text : Text
  /-- Its keyword. -/
  kw : Text
  /-- The kinds of the tokens behind the keyword. -/
  kinds : List TokenKind
  /-- What it sets. -/
  set : π → π

variable {π : Type} {field : Token → Text → π → Parser π} {fs : List (ParamField π)}

/-- The kinds of the tokens of fields with commas between them. -/
def joinKinds : List (ParamField π) → List TokenKind
  | [] => []
  | [f] => .ident f.kw :: f.kinds
  | f :: g :: fs => .ident f.kw :: (f.kinds ++ .comma :: joinKinds (g :: fs))

/-- A field that the lexer spells and that `field` reads. -/
structure ParamField.Reads (field : Token → Text → π → Parser π) (f : ParamField π) : Prop where
  spells : SpellsAll f.text (.ident f.kw :: f.kinds) true
  takes : ∀ tok q, Takes (field tok f.kw q) f.kinds (fun k => k = .comma ∨ k = .rParen) (f.set q)

/-- A field in front of a list of fields. -/
theorem joinKinds_cons (f : ParamField π) (fs : List (ParamField π)) :
    joinKinds (f :: fs) = .ident f.kw :: (f.kinds ++
      match fs with
      | [] => []
      | g :: gs => .comma :: joinKinds (g :: gs)) := by
  cases fs with
  | nil => rw [append_nil]; rfl
  | cons g gs => rfl

/-- Every field gives at least one token. -/
theorem length_le_joinKinds (fs : List (ParamField π)) : fs.length ≤ (joinKinds fs).length := by
  induction fs with
  | nil => exact Nat.zero_le _
  | cons f fs ih =>
    cases fs with
    | nil =>
      rw [joinKinds]
      simp
    | cons g gs =>
      rw [joinKinds]
      simp only [length_cons, length_append] at ih ⊢
      omega

variable (b : Build)

/-- The loop over the fields of a directive, up to the parenthesis behind them. -/
theorem takes_paramsLoop {loop : ℕ → π → Parser π} (hloop : ∀ n q, loop (n + 1) q = (do
      let tok ← peek
      if tok.kind = .rParen then return q
      else
      let kw ← expectIdent label
      let q ← field tok kw q
      let _ ← eatKind .comma
      loop n q)) (fs : List (ParamField π)) (hfs : ∀ f ∈ fs, f.Reads field) (n : ℕ)
    (hn : fs.length < n) (q : π) :
    Takes (loop n q) (joinKinds fs) (· = .rParen) (fs.foldl (fun q f => f.set q) q) := by
  induction fs generalizing n q with
  | nil =>
    obtain ⟨m, rfl⟩ : ∃ m, n = m + 1 := ⟨n - 1, by simp at hn; omega⟩
    rw [hloop]
    refine peek_behind fun tok htok => ?_
    rw [if_pos htok]
    exact .pure
  | cons f fs ih =>
    obtain ⟨m, rfl⟩ : ∃ m, n = m + 1 := ⟨n - 1, by simp at hn; omega⟩
    have hf := hfs f (by simp)
    have hrest := ih (fun g hg => hfs g (mem_cons_of_mem _ hg)) m (by simpa using hn) (f.set q)
    rw [hloop, joinKinds_cons]
    refine peek fun tok htok => ?_
    rw [if_neg (by rw [htok]; simp)]
    refine (Takes.expectIdent label f.kw).one_bind ?_
    refine (hf.takes tok q).bind (y := fs.foldl (fun q f => f.set q) (f.set q)) ?_ ?_
    · cases fs with
      | nil => exact (not_eatKind (by rintro _ rfl; decide)).bind hrest fun _ h => h
      | cons g gs => exact (Takes.eatKind .comma).one_bind hrest
    cases fs with
    | nil => exact fun k hk => .inr hk
    | cons g gs => exact fun k hk => .inl hk

/-- The text of fields, a comma in front of each. -/
def fieldsText (fs : List (ParamField π)) : Text := fs.flatMap fun f => ", ".toList ++ f.text

/-- The text of the fields spells their tokens. -/
theorem spells_fieldsText (hfs : ∀ f ∈ fs, f.Reads field) (hne : fs ≠ []) :
    SpellsAll (fieldsText fs) (.comma :: joinKinds fs) true := by
  induction fs with
  | nil => exact absurd rfl hne
  | cons f fs ih =>
    have hf : SpellsAll (", ".toList ++ f.text) (.comma :: .ident f.kw :: f.kinds) true :=
      (hfs f (by simp)).spells.blank.cons rfl
    cases fs with
    | nil =>
      rw [fieldsText, flatMap_singleton, joinKinds]
      exact hf
    | cons g gs =>
      have hrest := ih (fun g hg => hfs g (mem_cons_of_mem _ hg)) (by simp)
      rw [fieldsText, flatMap_cons, joinKinds]
      refine hf.append hrest fun _ => ⟨by simp, ?_⟩
      exact boundary_cons.2 (by decide)

/-! ## Directives with parameters -/

/-- The kinds of the tokens behind the name of a directive with a kind and parameters. -/
def directiveKinds (kind : Text) (fs : List (ParamField π)) : List TokenKind :=
  .lParen :: .string kind :: ((if fs.isEmpty then [] else .comma :: joinKinds fs) ++ [.rParen])

/-- The text of a directive spells its tokens. -/
theorem spells_directive (hfs : ∀ f ∈ fs, f.Reads field) (kind : Text) :
    SpellsAll ('(' :: quoteString kind ++ fieldsText fs ++ ")\n".toList)
      (directiveKinds kind fs) false := by
  have hclose : SpellsAll ")\n".toList [.rParen] false := by
    refine SpellsAll.cons rfl (SpellsAll.space fun c hc => ?_)
    obtain rfl := mem_singleton.1 hc
    decide
  have hfields : SpellsAll (fieldsText fs) (if fs.isEmpty then [] else .comma :: joinKinds fs)
      true := by
    cases fs with
    | nil => exact SpellsAll.nil.weaken
    | cons f fs => exact spells_fieldsText hfs (by simp)
  have hkind : SpellsAll ('(' :: quoteString kind) [.lParen, .string kind] false :=
    (string kind).all.cons rfl
  rw [append_assoc]
  refine hkind.append (hfields.append hclose fun _ => ?_) (by simp)
  exact ⟨by simp, boundary_cons.2 (by decide)⟩

/-- A parser of a directive with parameters, which it reads from fields or from a list of bytes. -/
theorem takes_directive {F : TokenKind → Prop} {loop : ℕ → π → Parser π}
    (hloop : ∀ n q, loop (n + 1) q = (do
      let tok ← peek
      if tok.kind = .rParen then return q
      else
      let kw ← expectIdent label
      let q ← field tok kw q
      let _ ← eatKind .comma
      loop n q)) {p : Parser Stmt} {other : Text → Parser Stmt} {build : Text → π → Parser Stmt}
    {q0 : π} {l1 l2 l3 l4 : String} (hp : p = (do
      expect .lParen l1
      let kind ← expectString l2
      let tok ← peek
      if tok.kind = .rParen then do
      let _ ← bump
      build kind q0
      else
      expect .comma l3
      let tok ← peek
      if tok.kind = .lBracket then other kind
      else
      let q ← bounded (loop · q0)
      expect .rParen l4
      build kind q)) (hfs : ∀ f ∈ fs, f.Reads field) {kind : Text} {stmt : Stmt}
    (hbuild : Takes (build kind (fs.foldl (fun q f => f.set q) q0)) [] F stmt) :
    Takes p (directiveKinds kind fs) F stmt := by
  rw [hp]
  refine (Takes.expect .lParen l1).one_bind ?_
  refine (Takes.expectString l2 kind).one_bind ?_
  cases fs with
  | nil =>
    refine Takes.peek fun tok htok => ?_
    rw [if_pos htok]
    exact hbuild.bump_bind
  | cons f fs =>
    have hloop' := Takes.bounded fun n hn =>
      takes_paramsLoop hloop (f :: fs) hfs n (lt_of_le_of_lt (length_le_joinKinds _) hn) q0
    have hclose : Takes (do
        let q ← bounded (loop · q0)
        expect .rParen l4
        build kind q) (joinKinds (f :: fs) ++ [.rParen]) F stmt :=
      hloop'.bind ((Takes.expect .rParen l4).one_bind hbuild) fun _ h => h
    refine Takes.peek fun tok htok => ?_
    rw [if_neg (by rw [htok]; simp)]
    refine (Takes.expect .comma l3).one_bind ?_
    rw [joinKinds_cons] at hclose ⊢
    refine Takes.peek fun tok htok => ?_
    rw [if_neg (by rw [htok]; simp)]
    exact hclose

/-! ## The fields of prologues and epilogues -/

/-- A list of registers. -/
def listField (kw : String) (names : List Text) (set : π → π) : ParamField π :=
  ⟨kw.toList ++ ": [".toList ++ commaSeparated names ++ [']'], kw.toList,
    .colon :: .lBracket :: (nameKinds names ++ [.rBracket]), set⟩

/-- A number. -/
def intField (kw : String) (n : UInt64) (set : π → π) : ParamField π :=
  ⟨kw.toList ++ ": ".toList ++ hexText n.toNat, kw.toList, [.colon, .int n], set⟩

/-- A keyword alone. -/
def flagField (kw : String) (set : π → π) : ParamField π := ⟨kw.toList, kw.toList, [], set⟩

/-- The other encoding of the frame. -/
def frameAltField : ParamField PrologueParams :=
  ⟨"frame=alt".toList, "frame".toList, [.eq, .ident "alt".toList],
    fun q => { q with frame := true, frame_alt := true }⟩

/-- The fields that are printed for the parameters of a prologue. -/
def prologueFields (p : PrologueParams) : List (ParamField PrologueParams) :=
  (if p.saves = [] then [] else [listField "saves" p.saves fun q => { q with saves := p.saves }]) ++
    (if p.frame then
      [if p.frame_alt then frameAltField else flagField "frame" fun q => { q with frame := true }]
      else []) ++
    (if 0 < p.sub_esp.toNat then
      [intField "sub" p.sub_esp.toUInt64 fun q => { q with sub_esp := p.sub_esp }] else []) ++
    (if p.saves_after = [] then [] else
      [listField "saves_after" p.saves_after fun q => { q with saves_after := p.saves_after }]) ++
    if p.cf_protect then [flagField "cf" fun q => { q with cf_protect := true }] else []

/-- The fields that are printed for the parameters of an epilogue. -/
def epilogueFields (e : EpilogueParams) : List (ParamField EpilogueParams) :=
  (if e.saves = [] then [] else [listField "saves" e.saves fun q => { q with saves := e.saves }]) ++
    (if 0 < e.add_esp.toNat then
      [intField "add" e.add_esp.toUInt64 fun q => { q with add_esp := e.add_esp }] else []) ++
    (if e.leave then [flagField "leave" fun q => { q with leave := true }]
      else if e.pop_frame then [flagField "pop_frame" fun q => { q with pop_frame := true }]
      else []) ++
    if 0 < e.ret_imm.toNat then
      [intField "ret_imm" e.ret_imm.toUInt64 fun q => { q with ret_imm := e.ret_imm }] else []

theorem fieldsText_append (fs gs : List (ParamField π)) :
    fieldsText (fs ++ gs) = fieldsText fs ++ fieldsText gs := flatMap_append

theorem fieldsText_list (kw : String) (names : List Text) (set : π → π) :
    fieldsText (if names = [] then [] else [listField kw names set]) = registerList kw names := by
  unfold registerList fieldsText
  split_ifs with h
  · rfl
  · simp [listField]

theorem fieldsText_int (kw : String) (n : ℕ) (m : UInt64) (hm : m.toNat = n) (set : π → π) :
    fieldsText (if 0 < n then [intField kw m set] else []) = numberField kw n := by
  unfold numberField fieldsText
  split_ifs with h
  · simp [intField, hm]
  · rfl

/-- The printer writes these fields. -/
theorem emitPrologueParams_eq (p : PrologueParams) :
    emitPrologueParams p = fieldsText (prologueFields p) := by
  unfold emitPrologueParams prologueFields
  rw [fieldsText_append, fieldsText_append, fieldsText_append, fieldsText_append, fieldsText_list,
    fieldsText_list, fieldsText_int _ _ _ (by simp)]
  congr 1
  · congr 3
    split_ifs <;> rfl
  · split_ifs <;> rfl

theorem emitEpilogueParams_eq (e : EpilogueParams) :
    emitEpilogueParams e = fieldsText (epilogueFields e) := by
  unfold emitEpilogueParams epilogueFields
  rw [fieldsText_append, fieldsText_append, fieldsText_append, fieldsText_list,
    fieldsText_int _ _ _ (by simp), fieldsText_int _ _ _ (by simp)]
  congr 2
  split_ifs <;> rfl

/-- Reading fields of which one is left out when it would set what is there already. -/
theorem foldl_field {c : Prop} [Decidable c] {f : ParamField π} {q : π} (h : c → f.set q = q) :
    (if c then [] else [f]).foldl (fun q f => f.set q) q = f.set q := by
  split_ifs with hc
  · exact (h hc).symm
  · rfl

/-- Reading the fields of a prologue gives its parameters. -/
theorem foldl_prologueFields (halt : p.frame_alt = true → p.frame = true) :
    (prologueFields p).foldl (fun q f => f.set q) ⟨[], [], false, 0, false, false⟩ = p := by
  obtain ⟨saves, after, frame, sub, cf, alt⟩ := p
  have hsub : ¬0 < sub.toNat → 0 = sub := fun h => UInt32.toNat.inj (Nat.eq_zero_of_not_pos h).symm
  simp only [prologueFields, foldl_append, ← ite_not _ ([] : List (ParamField _))]
  rw [foldl_field (c := saves = []) fun h => by rw [h]; rfl]
  cases frame with
  | false =>
    obtain rfl : alt = false := by simpa using halt
    rw [foldl_field (c := ¬0 < sub.toNat) fun h => by rw [← hsub h]; rfl,
      foldl_field (c := after = []) fun h => by rw [h]; rfl]
    cases cf <;> rfl
  | true =>
    rw [foldl_field (c := ¬0 < sub.toNat) fun h => by rw [← hsub h]; cases alt <;> rfl,
      foldl_field (c := after = []) fun h => by rw [h]; cases alt <;> rfl]
    cases alt <;> cases cf <;> rfl

/-- Reading the fields of an epilogue gives its parameters. -/
theorem foldl_epilogueFields (hleave : e.leave = true → e.pop_frame = false) :
    (epilogueFields e).foldl (fun q f => f.set q) ⟨[], false, false, 0, 0⟩ = e := by
  obtain ⟨saves, leave, pop, add, ret⟩ := e
  have hadd : ¬0 < add.toNat → 0 = add := fun h => UInt32.toNat.inj (Nat.eq_zero_of_not_pos h).symm
  have hret : ¬0 < ret.toNat → 0 = ret := fun h => UInt16.toNat.inj (Nat.eq_zero_of_not_pos h).symm
  simp only [epilogueFields, foldl_append, ← ite_not _ ([] : List (ParamField _))]
  rw [foldl_field (c := saves = []) fun h => by rw [h]; rfl,
    foldl_field (c := ¬0 < add.toNat) fun h => by rw [← hadd h]; rfl]
  cases leave with
  | false => cases pop <;> exact foldl_field fun h => by rw [← hret h]; rfl
  | true =>
    obtain rfl : pop = false := hleave rfl
    exact foldl_field fun h => by rw [← hret h]; rfl

/-! ## Reading the fields -/

/-- The text of a list of names spells its tokens. -/
theorem spells_commaSeparated (h : ∀ name ∈ names, IsIdentifier name) :
    SpellsAll (commaSeparated names) (nameKinds names) true := by
  induction names with
  | nil => exact SpellsAll.nil.weaken
  | cons name names ih =>
    have hname : SpellsAll name [.ident name] true := (Spells.ident (h name (by simp))).all
    cases names with
    | nil =>
      rw [commaSeparated, List.flatMap_nil, List.append_nil]
      exact hname
    | cons next names =>
      have hrest : SpellsAll (commaSeparated (next :: names)) (nameKinds (next :: names)) true :=
        ih fun n hn => h n (List.mem_cons_of_mem _ hn)
      have hcomma : SpellsAll (',' :: ' ' :: commaSeparated (next :: names))
          (.comma :: nameKinds (next :: names)) true := hrest.blank.cons rfl
      exact hname.append hcomma fun _ => ⟨by simp, boundary_cons.2 (by decide)⟩

/-- A keyword of a field with a value. -/
theorem spells_keyword (hkw : IsIdentifier kw.toList) {t : Text}
    {ks : List TokenKind} {b : Bool} (h : SpellsAll t ks b) :
    SpellsAll (kw.toList ++ ": ".toList ++ t) (.ident kw.toList :: .colon :: ks) b := by
  rw [append_assoc]
  have hcolon : SpellsAll (": ".toList ++ t) (.colon :: ks) b := h.blank.cons rfl
  exact (ident hkw).all.append hcolon fun _ => ⟨by simp, boundary_cons.2 (by decide)⟩

/-- The text of a list field spells its tokens. -/
theorem spells_listField (hkw : IsIdentifier kw.toList)
    (h : ∀ name ∈ names, IsIdentifier name) (set : π → π) :
    SpellsAll (listField kw names set).text
      (.ident (listField kw names set).kw :: (listField kw names set).kinds) true := by
  have hclose : SpellsAll [']'] [.rBracket] false := (single rfl).all
  have hlist : SpellsAll ('[' :: (commaSeparated names ++ [']']))
      (.lBracket :: (nameKinds names ++ [.rBracket])) false :=
    ((spells_commaSeparated h).append hclose fun _ =>
      ⟨by simp, boundary_cons.2 (by decide)⟩).cons rfl
  have hall := (spells_keyword hkw hlist).weaken
  have htext : kw.toList ++ ": ".toList ++ ('[' :: (commaSeparated names ++ [']'])) =
      (listField kw names set).text := by
    simp [listField]
  rwa [htext] at hall

theorem spells_intField (hkw : IsIdentifier kw.toList) (n : UInt64) (set : π → π) :
    SpellsAll (intField kw n set).text (.ident (intField kw n set).kw :: (intField kw n set).kinds)
      true :=
  spells_keyword hkw (hex n).all

theorem spells_flagField (hkw : IsIdentifier kw.toList) (set : π → π) :
    SpellsAll (flagField kw set).text (.ident (flagField kw set).kw :: (flagField kw set).kinds)
      true :=
  (ident hkw).all

/-- The kinds behind a field. -/
def BehindField (k : TokenKind) : Prop := k = .comma ∨ k = .rParen

theorem takes_listValue (hne : names ≠ []) (set : List Text → π) :
    Takes (do
      expect .colon label
      let names ← parseRegisterList
      return set names) (.colon :: .lBracket :: (nameKinds names ++ [.rBracket])) BehindField
      (set names) :=
  (Takes.expect .colon label).one_bind ((takes_parseRegisterList hne).map set)

theorem takes_intValue {label label' : String} {n : UInt64} {set : UInt64 → π} {x : π}
    (hx : set n = x) :
    Takes (do
      expect .colon label
      let n ← expectInt label'
      return set n) [.colon, .int n] BehindField x :=
  hx ▸ (Takes.expect .colon label).one_bind ((expectInt label' n).map set)

open Parser.prologueParamsLoop (prologueField) in
/-- The fields of a prologue are read as written. -/
theorem reads_prologueFields (hsaves : ∀ name ∈ p.saves, IsIdentifier name)
    (hafter : ∀ name ∈ p.saves_after, IsIdentifier name) :
    ∀ f ∈ prologueFields p, f.Reads prologueField := by
  intro f hf
  simp only [prologueFields, mem_append, mem_ite_nil_left, mem_ite_nil_right, mem_singleton] at hf
  rcases hf with (((⟨h, rfl⟩ | ⟨-, rfl⟩) | ⟨-, rfl⟩) | ⟨h, rfl⟩) | ⟨-, rfl⟩
  · refine ⟨spells_listField (by decide) hsaves _, fun tok q => ?_⟩
    exact takes_listValue h fun names => { q with saves := names }
  · split_ifs
    · refine ⟨?_, fun tok q => ?_⟩
      · have hval : SpellsAll "=alt".toList [.eq, .ident "alt".toList] true :=
          (ident (w := "alt".toList) (by decide)).all.cons rfl
        exact (ident (w := "frame".toList) (by decide)).all.append hval fun _ =>
          ⟨by simp, boundary_cons.2 (by decide)⟩
      refine (Takes.eatKind .eq).one_bind ?_
      refine Takes.peek fun marker _ => ?_
      exact (Takes.expectIdent _ _).one_bind .pure
    refine ⟨spells_flagField (by decide) _, fun tok q => ?_⟩
    refine (not_eatKind ?_).bind .pure fun _ hk => hk
    rintro _ (rfl | rfl) <;> decide
  · refine ⟨spells_intField (by decide) _ _, fun tok q => takes_intValue ?_⟩
    simp only [intField, UInt32.toUInt32_toUInt64]
  · refine ⟨spells_listField (by decide) hafter _, fun tok q => ?_⟩
    exact takes_listValue h fun names => { q with saves_after := names }
  · exact ⟨spells_flagField (by decide) _, fun tok q => .pure⟩

open Parser.epilogueParamsLoop (epilogueField) in
/-- The fields of an epilogue are read as written. -/
theorem reads_epilogueFields (hsaves : ∀ name ∈ e.saves, IsIdentifier name) :
    ∀ f ∈ epilogueFields e, f.Reads epilogueField := by
  intro f hf
  simp only [epilogueFields, mem_append, mem_ite_nil_left, mem_ite_nil_right, mem_singleton] at hf
  rcases hf with ((⟨h, rfl⟩ | ⟨-, rfl⟩) | hf) | ⟨-, rfl⟩
  · refine ⟨spells_listField (by decide) hsaves _, fun tok q => ?_⟩
    exact takes_listValue h fun names => { q with saves := names }
  · refine ⟨spells_intField (by decide) _ _, fun tok q => takes_intValue ?_⟩
    simp only [intField, UInt32.toUInt32_toUInt64]
  · split_ifs at hf with h h'
    iterate 2
      · obtain rfl := mem_singleton.1 hf
        exact ⟨spells_flagField (by decide) _, fun tok q => .pure⟩
    · cases hf
  · refine ⟨spells_intField (by decide) _ _, fun tok q => takes_intValue ?_⟩
    simp only [intField, UInt16.toUInt16_toUInt64]

/-! ## Whole directives -/

/-- The text `t` is read back as `s`: wherever it stands, its tokens come before those of the text
behind, and the parser takes just these. -/
def ReadsBack (bits : ℕ) (s : Stmt) (t : Text) : Prop :=
  ∀ (list : Parser (List Stmt)) (ifBody : Parser Parser.IfBody) (allowSwitch : Bool) (pos : Pos)
    (rest : Text) (toks : List Token), Lexes ⟨pos.after t, rest⟩ toks →
      ∃ us, Lexes ⟨pos, t ++ rest⟩ (us ++ toks) ∧ ∀ prev, ∃ prev',
        Parser.parseStmt b bits list ifBody allowSwitch ⟨prev, us ++ toks⟩ = .ok (s, ⟨prev', toks⟩)

/-- A directive with parameters behind an indentation. -/
theorem readsBack_directive {bits : ℕ} {s : Stmt} (name : String) {kind : Text}
    (hfs : ∀ f ∈ fs, f.Reads field) (hname : IsIdentifier name.toList)
    (htakes : ∀ list dirTok, Takes (parseStmtAtDirective bits list name.toList dirTok)
      (directiveKinds kind fs) (fun _ => True) s)
    (indent : ℕ) :
    ReadsBack b bits s (replicate indent ' ' ++ '@' :: name.toList ++ '(' :: quoteString kind ++
      fieldsText fs ++ ")\n".toList) := by
  intro list ifBody allowSwitch pos rest toks hrest
  have hspace : SpellsAll (replicate indent ' ') [] false := by
    refine SpellsAll.space fun c hc => ?_
    obtain rfl := eq_of_mem_replicate hc
    decide
  have hbody := spells_directive hfs kind
  have hat : SpellsAll ('@' :: (name.toList ++ ('(' :: quoteString kind ++ fieldsText fs ++
      ")\n".toList))) (.atSign :: .ident name.toList :: directiveKinds kind fs) false := by
    refine SpellsAll.cons rfl ?_
    refine (ident hname).all.append hbody fun _ => ⟨by simp, ?_⟩
    exact boundary_cons.2 (by decide)
  have hall := hspace.append hat (by simp)
  have htext : replicate indent ' ' ++ ('@' :: (name.toList ++ ('(' :: quoteString kind ++
      fieldsText fs ++ ")\n".toList))) = replicate indent ' ' ++ '@' :: name.toList ++
        '(' :: quoteString kind ++ fieldsText fs ++ ")\n".toList := by
    simp
  rw [htext] at hall
  obtain ⟨us, hus, hlex⟩ := hall.lexes (by simp) hrest
  refine ⟨us, hlex, fun prev => ?_⟩
  obtain ⟨tok, toks', rfl⟩ := exists_cons_of_ne_nil hrest.ne_nil
  have hstmt : Takes (parseStmt b bits list ifBody allowSwitch)
      (.atSign :: .ident name.toList :: directiveKinds kind fs) (fun _ => True) s := by
    refine peek fun atTok hat => ?_
    rw [hat]
    refine bump_bind (peek fun dirTok _ => ?_)
    exact (Takes.expectIdent _ _).one_bind (htakes list dirTok)
  exact hstmt prev us tok toks' hus trivial

theorem parseStmtAtDirective_prologue (bits : ℕ) (list : Parser (List Stmt)) (dirTok : Token) :
    parseStmtAtDirective bits list "prologue".toList dirTok = parsePrologue bits := by
  have h : ("asm".toList ≠ "prologue".toList) ∧ "return".toList ≠ "prologue".toList := by decide
  rw [parseStmtAtDirective, stmtDirectives,
    List.find?_cons_of_neg (by simpa only [decide_eq_true_eq] using h.1),
    List.find?_cons_of_neg (by simpa only [decide_eq_true_eq] using h.2),
    List.find?_cons_of_pos (by simp only [decide_true])]

theorem parseStmtAtDirective_epilogue (bits : ℕ) (list : Parser (List Stmt)) (dirTok : Token) :
    parseStmtAtDirective bits list "epilogue".toList dirTok = parseEpilogue bits := by
  have h : ("asm".toList ≠ "epilogue".toList) ∧ "return".toList ≠ "epilogue".toList ∧
      "prologue".toList ≠ "epilogue".toList := by decide
  rw [parseStmtAtDirective, stmtDirectives,
    List.find?_cons_of_neg (by simpa only [decide_eq_true_eq] using h.1),
    List.find?_cons_of_neg (by simpa only [decide_eq_true_eq] using h.2.1),
    List.find?_cons_of_neg (by simpa only [decide_eq_true_eq] using h.2.2),
    List.find?_cons_of_pos (by simp only [decide_true])]

/-- A statement that is built with bytes which are encoded. -/
theorem takes_encoded {encoded : Option Bytes} {bytes : Bytes} (h : encoded = some bytes)
    (stmt : Bytes → Stmt) :
    Takes (do
      let bytes ← StateT.lift (orPanic encoded)
      return stmt bytes) [] (fun _ => True) (stmt bytes) := by
  intro prev us tok toks hus _
  obtain rfl := map_eq_nil_iff.1 hus
  refine ⟨prev, bind_eq_ok.2 ⟨bytes, ⟨prev, tok :: toks⟩, ?_, rfl⟩⟩
  rw [h]
  rfl

/-- A prologue with parameters is read back with its bytes. -/
theorem readsBack_prologue {bits : ℕ} {bytes : Bytes} (hsaves : ∀ name ∈ p.saves, IsIdentifier name)
    (hafter : ∀ name ∈ p.saves_after, IsIdentifier name)
    (halt : p.frame_alt = true → p.frame = true)
    (hbytes : encodePrologueBytes bits p = some bytes) (kind : Text) (indent : ℕ) :
    ReadsBack b bits (.prologue kind (some p) bytes)
      (emitSimple b (replicate indent ' ') (.prologue kind (some p) bytes)) := by
  have hfs := reads_prologueFields hsaves hafter
  have hbuild := takes_encoded hbytes (.prologue kind (some p))
  have htakes : Takes (parsePrologue bits) (directiveKinds kind (prologueFields p)) (fun _ => True)
      (.prologue kind (some p) bytes) :=
    takes_directive (fun _ _ => rfl) rfl hfs (by rw [foldl_prologueFields halt]; exact hbuild)
  have hdir := readsBack_directive b "prologue" hfs (by decide)
    (fun list dirTok => parseStmtAtDirective_prologue bits list dirTok ▸ htakes) indent
  rw [emitSimple, emitPrologueParams_eq]
  simpa using hdir

/-- An epilogue with parameters is read back with its bytes. -/
theorem readsBack_epilogue {bits : ℕ} {bytes : Bytes}
    (hsaves : ∀ name ∈ e.saves, IsIdentifier name) (hleave : e.leave = true → e.pop_frame = false)
    (hbytes : encodeEpilogueBytes bits e = some bytes) (kind : Text) (indent : ℕ) :
    ReadsBack b bits (.epilogue kind (some e) bytes)
      (emitSimple b (replicate indent ' ') (.epilogue kind (some e) bytes)) := by
  have hfs := reads_epilogueFields hsaves
  have hbuild := takes_encoded hbytes (.epilogue kind (some e))
  have htakes : Takes (parseEpilogue bits) (directiveKinds kind (epilogueFields e)) (fun _ => True)
      (.epilogue kind (some e) bytes) :=
    takes_directive (fun _ _ => rfl) rfl hfs (by rw [foldl_epilogueFields hleave]; exact hbuild)
  have hdir := readsBack_directive b "epilogue" hfs (by decide)
    (fun list dirTok => parseStmtAtDirective_epilogue bits list dirTok ▸ htakes) indent
  rw [emitSimple, emitEpilogueParams_eq]
  simpa using hdir

/-- The registers of decoded parameters are names of the lexer. -/
theorem isIdentifier_of_isDecodedName {name : Text} (h : IsDecodedName bits name) :
    IsIdentifier name := by
  have hall : ∀ name ∈ registerNames, IsIdentifier name := by decide
  exact hall name h.1

/-- Structured prologues and epilogues preserve bytes. Where the codec gives the parameters of a
prologue or an epilogue, the directive that is printed for these is read back, for the same width
and wherever it stands, with the same parameters and with exactly the bytes they were decoded
from. -/
theorem structured_roundTrip (bits : ℕ) (kind : Text) (indent : ℕ) (bytes : Bytes) :
    (∀ p, prologueRoundtrips bytes (Lower.codecBits bits) = some (some p) →
      prologueToCodec (prologueOfCodec p) = p ∧
        ReadsBack b bits (.prologue kind (some (prologueOfCodec p)) bytes)
          (emitSimple b (List.replicate indent ' ')
            (.prologue kind (some (prologueOfCodec p)) bytes))) ∧
    (∀ e, epilogueRoundtrips bytes (Lower.codecBits bits) = some (some e) →
      epilogueToCodec (epilogueOfCodec e) = e ∧
        ReadsBack b bits (.epilogue kind (some (epilogueOfCodec e)) bytes)
          (emitSimple b (List.replicate indent ' ')
            (.epilogue kind (some (epilogueOfCodec e)) bytes))) := by
  constructor
  · intro p hp
    obtain ⟨hdec, henc⟩ := prologueRoundtrips_eq_some hp
    have hcodec := prologueToCodec_ofCodec hdec
    refine ⟨hcodec, readsBack_prologue b ?_ ?_ hdec.alt ?_ kind indent⟩
    · exact fun name hname => isIdentifier_of_isDecodedName (hdec.saves name hname)
    · exact fun name hname => isIdentifier_of_isDecodedName (hdec.saves_after name hname)
    · show encodePrologue (prologueToCodec (prologueOfCodec p)) _ = some bytes
      rw [hcodec, henc]
  intro e he
  obtain ⟨hdec, henc⟩ := epilogueRoundtrips_eq_some he
  have hcodec := epilogueToCodec_ofCodec hdec
  refine ⟨hcodec, readsBack_epilogue b ?_ hdec.leave ?_ kind indent⟩
  · exact fun name hname => isIdentifier_of_isDecodedName (hdec.saves name hname)
  · show encodeEpilogue (epilogueToCodec (epilogueOfCodec e)) _ = some bytes
    rw [hcodec, henc]

/-- A frame with two saved registers and stack space, in 32-bit code. -/
theorem structured_roundTrip_frame :
    ∃ p, prologueRoundtrips [0x55, 0x89, 0xe5, 0x83, 0xec, 0x40, 0x53, 0x56] .bits32 =
        some (some p) ∧ p.frame_alt_encoding = true ∧
      ReadsBack ⟨false, fun _ => false⟩ 32
        (.prologue "std".toList (some (prologueOfCodec p))
          [0x55, 0x89, 0xe5, 0x83, 0xec, 0x40, 0x53, 0x56])
        "    @prologue(\"std\", frame=alt, sub: 0x40, saves_after: [ebx, esi])\n".toList := by
  refine ⟨_, rfl, rfl, ?_⟩
  exact ((structured_roundTrip ⟨false, fun _ => false⟩ 32 "std".toList 4
    [0x55, 0x89, 0xe5, 0x83, 0xec, 0x40, 0x53, 0x56]).1 _ rfl).2

end Univdreams.Ud
