import Univdreams.Decompile.DropBytes

/-!
# What the passes keep of a function

The passes change pinned bytes only. Whether a body issues a call, starts with a prologue or ends
with an epilogue stays as it is, so that the same code is generated around it
(`SameFrame.frame_eq`).
-/

namespace Univdreams.Decompile

open Ast Arch Lower Option

/-- Whether a statement is a prologue. -/
def isPrologue : Stmt → Bool
  | .prologue .. => true
  | _ => false

/-- Whether a statement is an epilogue. -/
def isEpilogue : Stmt → Bool
  | .epilogue .. => true
  | _ => false

/-- What the code that is generated around a body depends on in one of its statements. -/
def frameView (s : Stmt) : Bool × Bool × Bool := (stmtContainsCall s, isPrologue s, isEpilogue s)

/-- The same code is generated around both bodies. -/
def SameFrame (ss ts : List Stmt) : Prop := ts.map frameView = ss.map frameView

/-! ## The same frame -/

/-- A body issues a call when one of its statements does. -/
theorem bodyContainsCall_eq (ss : List Stmt) :
    bodyContainsCall ss = (ss.map frameView).any Prod.fst := by
  induction ss with
  | nil => rfl
  | cons s ss ih =>
    rw [bodyContainsCall, ih]
    rfl

/-- Bodies with the same frame issue calls alike. -/
theorem SameFrame.containsCall_eq {ss ts : List Stmt} (h : SameFrame ss ts) :
    bodyContainsCall ts = bodyContainsCall ss := by
  rw [bodyContainsCall_eq, bodyContainsCall_eq, h]

/-- A prologue is generated when there is a flag for it and the body does not start with one. -/
theorem regenPro_eq (f : FnDecl) : regenPro f = (!(f.body.map frameView).head?.any (·.2.1) &&
    (hasFlag f "autogen_pro" || hasFlag f "autogen")) := by
  unfold regenPro
  rw [List.head?_map]
  congr 1
  cases f.body.head? with
  | none => rfl
  | some s => cases s <;> rfl

/-- An epilogue is generated when there is a flag for it and the body does not end with one. -/
theorem regenEpi_eq (f : FnDecl) : regenEpi f = (!(f.body.map frameView).getLast?.any (·.2.2) &&
    (hasFlag f "autogen_epi" || hasFlag f "autogen")) := by
  unfold regenEpi
  rw [List.getLast?_map]
  congr 1
  cases f.body.getLast? with
  | none => rfl
  | some s => cases s <;> rfl

/-- What is generated around a body is the same for one with the same frame. -/
theorem SameFrame.frame_eq {f : FnDecl} {body : List Stmt} (h : SameFrame f.body body)
    (checks : Bool) :
    regenPro { f with body := body } = regenPro f ∧ regenEpi { f with body := body } = regenEpi f ∧
      autoPrologueBytes checks { f with body := body } = autoPrologueBytes checks f ∧
      autoEpilogueBytes checks { f with body := body } = autoEpilogueBytes checks f := by
  have hprofile : profileInputsFromFn checks { f with body := body } =
      profileInputsFromFn checks f := by
    unfold profileInputsFromFn
    rw [h.containsCall_eq]
    rfl
  refine ⟨?_, ?_, ?_, ?_⟩
  · rw [regenPro_eq, regenPro_eq, h]
    rfl
  · rw [regenEpi_eq, regenEpi_eq, h]
    rfl
  · unfold autoPrologueBytes
    rw [hprofile]
  · unfold autoEpilogueBytes
    rw [hprofile]

/-! ## The passes keep the frame -/

section Codec

variable {checks : Bool} {arch : ArchCodec}

mutual

/-- The second pass keeps what the frame of a function depends on in a statement. -/
theorem frameView_dropStmt {ip : ℕ} {s t : Stmt}
    (h : dropStmt checks arch ip s = some t) : frameView t = frameView s := by
  cases s with
  | asm | move | regArith | «return» | call =>
    obtain ⟨_, -, rfl⟩ := map_eq_some_iff.1 h
    rfl
  | ifBlock =>
    obtain ⟨_, -, h⟩ := bind_eq_some_iff.1 h
    obtain ⟨_, _, _, -, -, -, rfl⟩ := steps₃_eq_some.1 h
    rfl
  | whileBlock =>
    obtain ⟨_, _, _, -, -, -, rfl⟩ := steps₃_eq_some.1 h
    rfl
  | ifBranch _ _ _ _ _ else_body =>
    -- A branch contains the calls of its bodies.
    cases else_body with
    | none =>
      obtain ⟨_, _, hp, ht, rfl⟩ := steps₂_eq_some.1 h
      simp only [frameView, stmtContainsCall, (sameFrame_dropStmts hp).containsCall_eq,
        (sameFrame_dropStmts ht).containsCall_eq]
      rfl
    | some else_body =>
      obtain ⟨_, _, _, hp, ht, he, rfl⟩ := steps₃_eq_some.1 h
      simp only [frameView, stmtContainsCall, (sameFrame_dropStmts hp).containsCall_eq,
        (sameFrame_dropStmts ht).containsCall_eq, (sameFrame_dropStmts he).containsCall_eq]
      rfl
  | _ =>
    obtain rfl := Option.some.inj h
    rfl

/-- The second pass keeps the frame of a body. -/
theorem sameFrame_dropStmts {ip : ℕ} : ∀ {ss ts : List Stmt},
    dropStmts checks arch ip ss = some ts → SameFrame ss ts
  | [], _, h => by
    obtain rfl := Option.some.inj h
    rfl
  | s :: ss, _, h => by
    obtain ⟨_, _, hs, hss, rfl⟩ := steps₂_eq_some.1 h
    exact congrArg₂ List.cons (frameView_dropStmt hs) (sameFrame_dropStmts hss)

end

end Codec

section Asm

variable {p : X86.Platform} {bitness : X86.Bitness}

mutual

/-- The first pass keeps what the frame of a function depends on in a statement. -/
theorem frameView_asmDropStmt {ip : ℕ} {s t : Stmt} (h : asmDropStmt p bitness ip s = some t) :
    frameView t = frameView s := by
  cases s with
  | asm =>
    obtain ⟨_, -, rfl⟩ := map_eq_some_iff.1 h
    rfl
  | ifBranch _ _ _ _ _ else_body =>
    cases else_body with
    | none =>
      obtain ⟨_, _, hp, ht, rfl⟩ := steps₂_eq_some.1 h
      simp only [frameView, stmtContainsCall, (sameFrame_asmDropStmts hp).containsCall_eq,
        (sameFrame_asmDropStmts ht).containsCall_eq]
      rfl
    | some else_body =>
      obtain ⟨_, _, _, hp, ht, he, rfl⟩ := steps₃_eq_some.1 h
      simp only [frameView, stmtContainsCall, (sameFrame_asmDropStmts hp).containsCall_eq,
        (sameFrame_asmDropStmts ht).containsCall_eq, (sameFrame_asmDropStmts he).containsCall_eq]
      rfl
  | loop =>
    obtain ⟨_, hb, rfl⟩ := steps₁_eq_some.1 h
    simp only [frameView, stmtContainsCall, (sameFrame_asmDropStmts hb).containsCall_eq]
    rfl
  | _ =>
    obtain rfl := Option.some.inj h
    rfl

/-- The first pass keeps the frame of a body. -/
theorem sameFrame_asmDropStmts {ip : ℕ} : ∀ {ss ts : List Stmt},
    asmDropStmts p bitness ip ss = some ts → SameFrame ss ts
  | [], _, h => by
    obtain rfl := Option.some.inj h
    rfl
  | s :: ss, _, h => by
    obtain ⟨_, _, hs, hss, rfl⟩ := steps₂_eq_some.1 h
    exact congrArg₂ List.cons (frameView_asmDropStmt hs) (sameFrame_asmDropStmts hss)

end

end Asm

end Univdreams.Decompile
