import Univdreams.Decompile.RelativeJumps
import Univdreams.Decompile.Dropped

/-!
# When dropped bytes are encoded again in place

The passes compare pinned bytes with an encoding at their own cursor; the lowering encodes cleared
bytes again at the address where the statement lands. `stmtSettled` says of a statement at which
points the two have to agree, in terms of addresses, sizes and names:

* an instruction or a call that is encoded for its address is visited with the cursor at the address
  where it lands, and the name of the call is not that of a tail call;
* the estimated size of the body that a jump leads over is its size;
* there is an else-branch where a jump over one is cleared, since none is encoded otherwise.

Nothing is asked of statements whose bytes are not those of the encoding, and moves, arithmetic and
returns have no address in theirs. A comparison that panics is excluded.

In `stmtSettled base base' ip out` the statement is lowered at `base` before the pass and at `base'`
behind it, behind the bytes `out`, and `ip` is the cursor of the pass. The two addresses differ in
an else-branch behind a short jump that was cleared, for which the lowering reserves eight bytes.
-/

namespace Univdreams.Decompile

open Ast Arch Lower Run Option

section Settled

variable (checks : Bool) (arch : ArchCodec) (fnName : Text)

/-- The address behind `len` bytes at `base` and a jump of `jump` bytes. -/
def startBehind (base len jump : ℕ) : ℕ := saturatingAdd (saturatingAdd base len) jump

/-- A pinned instruction that lands at `here` and is visited at `ip`. If its bytes are those of the
text, or of the text with its symbols resolved, the text alone assembles to nothing else, and it is
visited where it lands, or its address does not matter. -/
def AsmSettled (here ip : ℕ) (text : Text) (bytes : Bytes) : Prop :=
  arch.assembleOne text ip ≠ .error .panic ∧
  (arch.assembleOne text ip = .ok bytes ∨
    arch.assembleOne (arch.desymbolize text ip) ip ≠ .error .panic) ∧
  (arch.assembleOne text ip = .ok bytes ∨
      arch.assembleOne (arch.desymbolize text ip) ip = .ok bytes →
    (∀ encoded, arch.assembleOne text ip = .ok encoded → encoded = bytes) ∧
    (ip = here ∨ ∀ x y, assembleText arch text x = assembleText arch text y))

/-- A pinned call to `target` behind `len` bytes, visited at `ip`. If its bytes are those of a call,
it is no tail call and visited where it lands. -/
def CallSettled (base len ip : ℕ) (name : Text) (bytes : Bytes) (target : UInt64) : Prop :=
  arch.encodeCall ip target.toNat .default ≠ .error .panic ∧
  (arch.encodeCall ip target.toNat .default = .ok bytes →
    ¬"tail_".toList <+: name ∧ checkedAdd base len = some ip)

/-- A pinned conditional jump that lands at `here` and is visited at `ip`, over a body of `bodyLen`
bytes and `reserved` ones for a jump. If its bytes are those of a jump over what the pass expects,
that is what is there. -/
def SkipSettled (here ip : ℕ) (cond_text : Text) (bytes : Bytes) (body : List Stmt)
    (tailLen bodyLen reserved : ℕ) : Prop :=
  ∃ encoded, skipEncoded checks arch ip cond_text bytes body tailLen = some encoded ∧
    encoded ≠ .error .panic ∧
    (encoded = .ok bytes →
      stmtsTotalBytesAt checks (saturatingAdd ip bytes.length) body = some bodyLen ∧
      tailLen = reserved ∧ ip + 8 + bodyLen + reserved < wordSize ∧
      here + 8 + bodyLen + reserved < wordSize)

/-- A pinned jump over an else-branch of `elseLen` bytes that lands at `here` and is visited at
`ip`. If its bytes are those of a jump over what the pass expects, that is what is there, and not
nothing. -/
def ThenTailSettled (here ip : ℕ) (then_tail_jmp : Bytes) (else_body : List Stmt) (elseLen : ℕ) :
    Prop :=
  ∃ encoded, thenTailEncoded checks arch ip else_body = some encoded ∧
    encoded ≠ .error .panic ∧
    (encoded = .ok then_tail_jmp → else_body ≠ [] ∧
      stmtsTotalBytesAt checks (saturatingAdd ip (slotSize arch)) else_body = some elseLen ∧
      ip + slotSize arch + elseLen < wordSize ∧ here + slotSize arch + elseLen < wordSize)

/-- A pinned jump, visited at `ip`, back to `entryIp`, over `len` bytes that land at `here`. If its
bytes are those of a jump to `entryIp`, the cursor moved by as many bytes. -/
def BackEdgeSettled (here entryIp ip : ℕ) (tail_bytes : Bytes) (len : ℕ) : Prop :=
  arch.encodeJump ip entryIp .default ≠ .error .panic ∧
  (arch.encodeJump ip entryIp .default = .ok tail_bytes →
    ip = entryIp + len ∧ ip + tail_bytes.length < wordSize ∧
    here + len + tail_bytes.length < wordSize)

/-- The bytes that the lowering behind the pass reserves for the jump over an else-branch. -/
def reservedBehind (ip : ℕ) (then_tail_jmp : Bytes) (else_body : List Stmt) : ℕ :=
  if then_tail_jmp ≠ [] ∧
      thenTailEncoded checks arch ip else_body = some (.ok then_tail_jmp) then 8
  else thenTailJmpLen then_tail_jmp else_body

mutual

/-- At a statement, the pass and the lowering agree where they have to. -/
def stmtSettled (base base' ip : ℕ) (out : Bytes) : Stmt → Prop
  | .asm text bytes => (base = base' ∨ stmtPlaceless arch (.asm text bytes)) ∧
    (bytes ≠ [] → AsmSettled arch (saturatingAdd base' out.length) ip text bytes)
  | .call name args bytes direct_target =>
    (base = base' ∨ stmtPlaceless arch (.call name args bytes direct_target)) ∧
    ∀ target, direct_target = some target → arch.directCallBytesContainCall →
      bytes.head? = some 0x85 → CallSettled arch base' out.length ip name bytes target
  | .move dst src bytes => bytes ≠ [] → arch.encodeMove dst src ≠ .error .panic
  | .regArith dst op src bytes => bytes ≠ [] → arch.encodeArith dst op src ≠ .error .panic
  | .return value bytes => bytes ≠ [] → arch.encodeReturn (some value.toNat) ≠ .error .panic
  | .ifBlock cond_text cond_bytes then_body then_tail_jmp else_body =>
    (base = base' ∨ cond_bytes ≠ [] ∧ (then_tail_jmp ≠ [] ∨ else_body = [])) ∧
    stmtsSettled (startBehind base out.length (condLen cond_bytes))
      (startBehind base' out.length (condLen cond_bytes)) (saturatingAdd ip (slotSize arch)) 0 []
      then_body ∧
    ∀ thenBuf elseBuf,
      lowerStmtsFrom checks arch fnName
        (some (startBehind base out.length (condLen cond_bytes))) 0 [] then_body = .ok thenBuf →
      lowerStmtsFrom checks arch fnName
        (some (startBehind (startBehind base out.length (condLen cond_bytes)) thenBuf.length
          (thenTailJmpLen then_tail_jmp else_body))) 0 [] else_body = .ok elseBuf →
      (cond_bytes ≠ [] → SkipSettled checks arch (saturatingAdd base' out.length) ip cond_text
        cond_bytes then_body then_tail_jmp.length thenBuf.length
        (thenTailJmpLen then_tail_jmp else_body)) ∧
      (then_tail_jmp ≠ [] → ThenTailSettled checks arch
        (saturatingAdd base' (out.length + condLen cond_bytes + thenBuf.length))
        (ipBehindAll arch (saturatingAdd ip (slotSize arch)) then_body) then_tail_jmp else_body
        elseBuf.length) ∧
      stmtsSettled
        (startBehind (startBehind base out.length (condLen cond_bytes)) thenBuf.length
          (thenTailJmpLen then_tail_jmp else_body))
        (startBehind (startBehind base' out.length (condLen cond_bytes)) thenBuf.length
          (reservedBehind checks arch
            (ipBehindAll arch (saturatingAdd ip (slotSize arch)) then_body) then_tail_jmp
              else_body))
        (behindPinned arch (ipBehindAll arch (saturatingAdd ip (slotSize arch)) then_body)
          then_tail_jmp) 0 [] else_body
  | .whileBlock cond_text entry_bytes tail_bytes body =>
    (base = base' ∨ entry_bytes ≠ [] ∧ tail_bytes ≠ []) ∧
    stmtsSettled (startBehind base out.length (condLen entry_bytes))
      (startBehind base' out.length (condLen entry_bytes)) (saturatingAdd ip (slotSize arch)) 0 []
      body ∧
    ∀ bodyBuf, lowerStmtsFrom checks arch fnName
        (some (startBehind base out.length (condLen entry_bytes))) 0 [] body = .ok bodyBuf →
      (entry_bytes ≠ [] → SkipSettled checks arch (saturatingAdd base' out.length) ip
        cond_text entry_bytes body tail_bytes.length bodyBuf.length (tailBytesLen tail_bytes)) ∧
      (tail_bytes ≠ [] → BackEdgeSettled arch (saturatingAdd base' out.length) ip
        (ipBehindAll arch (saturatingAdd ip (slotSize arch)) body) tail_bytes
        (condLen entry_bytes + bodyBuf.length))
  | .ifBranch _ cond_bytes attrs pre_body then_body none =>
    stmtsSettled base base' ip 0 (out ++ (headBytesAttr attrs).getD []) pre_body ∧
    ∀ mid, lowerStmtsFrom checks arch fnName (some base) 0
        (out ++ (headBytesAttr attrs).getD []) pre_body = .ok mid →
      stmtsSettled base base' (saturatingAdd (ipBehindAll arch ip pre_body) cond_bytes.length) 0
        (mid ++ cond_bytes) then_body
  | .ifBranch _ cond_bytes attrs pre_body then_body (some else_body) =>
    stmtsSettled base base' ip 0 (out ++ (headBytesAttr attrs).getD []) pre_body ∧
    ∀ mid, lowerStmtsFrom checks arch fnName (some base) 0
        (out ++ (headBytesAttr attrs).getD []) pre_body = .ok mid →
      stmtsSettled base base' (saturatingAdd (ipBehindAll arch ip pre_body) cond_bytes.length) 0
        (mid ++ cond_bytes) then_body ∧
      ∀ mid', lowerStmtsFrom checks arch fnName (some base) 0 (mid ++ cond_bytes) then_body =
          .ok mid' →
        stmtsSettled base base' (ipBehindAll arch (saturatingAdd (ipBehindAll arch ip pre_body)
          cond_bytes.length) then_body) 0 mid' else_body
  | s => base = base' ∨ stmtPlaceless arch s

/-- `stmtSettled` of each statement, behind those before it. -/
def stmtsSettled (base base' ip i : ℕ) (out : Bytes) : List Stmt → Prop
  | [] => True
  | s :: ss => stmtSettled base base' ip out s ∧
    ∀ mid, lowerStmt checks arch fnName (some base) i out s = .ok mid →
      stmtsSettled base base' (ipBehind arch ip s) (i + 1) mid ss

end

end Settled

variable {checks : Bool} {arch : ArchCodec} {fnName : Text}

/-! ## What is left of bytes -/

/-- Nothing is left of nothing. -/
@[simp] theorem clearIf_nil (encoded : Run ArchError Bytes) : clearIf encoded [] = some [] := rfl

/-- A comparison that does not panic clears the bytes that it finds, and leaves the others. -/
theorem clearIf_of_ne_panic {encoded : Run ArchError Bytes} {bytes : Bytes}
    (h : bytes ≠ [] → encoded ≠ .error .panic) :
    clearIf encoded bytes = some bytes ∧ ¬(bytes ≠ [] ∧ encoded = .ok bytes) ∨
      clearIf encoded bytes = some [] ∧ bytes ≠ [] ∧ encoded = .ok bytes := by
  unfold clearIf
  split_ifs with hnil
  · exact .inl ⟨congrArg some hnil.symm, fun h => h.1 hnil⟩
  · match encoded, h hnil with
    | .ok e, _ =>
      by_cases he : e = bytes
      · exact .inr ⟨congrArg some (if_pos he), hnil, by rw [he]⟩
      · exact .inl ⟨congrArg some (if_neg he), fun h => he (Except.ok.inj h.2)⟩
    | .error (.err e), _ => exact .inl ⟨rfl, fun h => by cases h.2⟩

/-- What is encoded without an address is the same when it is encoded again. -/
theorem pinnedOr_clearIf {encoded : Run ArchError Bytes} {bytes : Bytes}
    (wrap : ArchError → LowerError) (h : bytes ≠ [] → encoded ≠ .error .panic) :
    ∃ left, clearIf encoded bytes = some left ∧
      pinnedOr left (liftArch wrap encoded) = pinnedOr bytes (liftArch wrap encoded) := by
  obtain ⟨hleft, -⟩ | ⟨hleft, hnil, hb⟩ := clearIf_of_ne_panic h
  · exact ⟨bytes, hleft, rfl⟩
  · refine ⟨[], hleft, ?_⟩
    rw [pinnedOr_of_ne_nil hnil, pinnedOr, if_pos rfl, liftArch_eq_ok]
    exact hb

/-- A settled instruction is left as it is, or its text assembles to its bytes where it lands. -/
theorem AsmSettled.exists_left {here ip : ℕ} {text : Text} {bytes : Bytes} (hnil : bytes ≠ [])
    (h : AsmSettled arch here ip text bytes) : ∃ left, leftAsm arch ip text bytes = some left ∧
      (left = bytes ∨ left = [] ∧ assembleText arch text here = .ok bytes) := by
  obtain ⟨hpure, hdesym, hfound⟩ := h
  obtain ⟨hleft, hne⟩ | ⟨hleft, -, hb⟩ := clearIf_of_ne_panic fun _ : bytes ≠ [] => hpure
  · -- The text alone is not found, and it is tried with its symbols resolved.
    have hne' : arch.assembleOne text ip ≠ .ok bytes := fun h => hne ⟨hnil, h⟩
    by_cases hsame : arch.desymbolize text ip = text
    · exact ⟨bytes, by simp [leftAsm, hleft, hsame], .inl rfl⟩
    obtain ⟨hleft', -⟩ | ⟨hleft', -, hb⟩ :=
      clearIf_of_ne_panic fun _ : bytes ≠ [] => hdesym.resolve_left hne'
    · exact ⟨bytes, by simp [leftAsm, hleft, hsame, hleft'], .inl rfl⟩
    refine ⟨[], by simp [leftAsm, hleft, hsame, hleft'], .inr ⟨rfl, ?_⟩⟩
    obtain ⟨honly, hplace⟩ := hfound (.inr hb)
    have hip : assembleText arch text ip = .ok bytes := by
      unfold assembleText
      match hr : arch.assembleOne text ip with
      | .ok e => exact absurd (honly e hr ▸ hr) hne'
      | .error .panic => exact absurd hr hpure
      | .error (.err e) => simp only [hsame, if_false, hb]
    rcases hplace with rfl | hfree
    · exact hip
    · rw [hfree here ip, hip]
  · refine ⟨[], by simp [leftAsm, hleft], .inr ⟨rfl, ?_⟩⟩
    have hip : assembleText arch text ip = .ok bytes := by
      unfold assembleText
      rw [hb]
    rcases (hfound (.inl hb)).2 with rfl | hfree
    · exact hip
    · rw [hfree here ip, hip]

/-- A settled conditional jump is left as it is, or the pass found a jump over what is there. -/
theorem SkipSettled.exists_left {here ip tailLen bodyLen reserved : ℕ} {cond_text : Text}
    {bytes : Bytes}
    {body : List Stmt} (hnil : bytes ≠ []) (h : SkipSettled checks arch here ip cond_text bytes
      body tailLen bodyLen reserved) :
    ∃ left, leftSkip checks arch ip cond_text bytes body tailLen = some left ∧
      (left = bytes ∨ left = [] ∧ here + 8 + bodyLen + reserved < wordSize ∧
        ip + 8 + bodyLen + reserved < wordSize ∧ arch.encodeCondJump cond_text ip
          (saturatingAdd (saturatingAdd (saturatingAdd ip (slotSize arch)) bodyLen) reserved)
            .default =
            .ok bytes) := by
  obtain ⟨encoded, henc, hpanic, hfound⟩ := h
  obtain ⟨hleft, -⟩ | ⟨hleft, -, hb⟩ := clearIf_of_ne_panic fun _ : bytes ≠ [] => hpanic
  · exact ⟨bytes, by simp [leftSkip, hnil, henc, hleft], .inl rfl⟩
  · obtain ⟨hsize, rfl, hip, hhere⟩ := hfound hb
    refine ⟨[], by simp [leftSkip, hnil, henc, hleft], .inr ⟨rfl, hhere, hip, ?_⟩⟩
    obtain ⟨size, hsize', henc⟩ := Option.bind_eq_some_iff.1 henc
    obtain rfl : size = bodyLen := Option.some.inj (hsize'.symm.trans hsize)
    rw [← hb]
    exact Option.some.inj henc

/-- A settled jump over an else-branch is left, or the pass found a jump over what is there. -/
theorem exists_leftThenTail {here ip elseLen : ℕ} {then_tail_jmp : Bytes} {else_body : List Stmt}
    (h : then_tail_jmp ≠ [] →
      ThenTailSettled checks arch here ip then_tail_jmp else_body elseLen) :
    ∃ left, leftThenTail checks arch ip then_tail_jmp else_body = some left ∧
      thenTailJmpLen left else_body = reservedBehind checks arch ip then_tail_jmp else_body ∧
      (left = then_tail_jmp ∨ left = [] ∧ then_tail_jmp ≠ [] ∧ else_body ≠ [] ∧
        here + slotSize arch + elseLen < wordSize ∧ ip + slotSize arch + elseLen < wordSize ∧
        arch.encodeJump ip (ip + (slotSize arch + elseLen)) .default = .ok then_tail_jmp) := by
  by_cases hnil : then_tail_jmp = []
  · exact ⟨[], by simp [leftThenTail, hnil], by simp [reservedBehind, hnil], .inl hnil.symm⟩
  obtain ⟨encoded, henc, hpanic, hfound⟩ := h hnil
  obtain ⟨hleft, hne⟩ | ⟨hleft, -, rfl⟩ := clearIf_of_ne_panic fun _ : then_tail_jmp ≠ [] => hpanic
  · refine ⟨then_tail_jmp, by simp [leftThenTail, hnil, henc, hleft], ?_, .inl rfl⟩
    rw [reservedBehind, henc, if_neg fun h => hne ⟨hnil, Option.some.inj h.2⟩]
  · obtain ⟨helse, hsize, hip, hhere⟩ := hfound rfl
    refine ⟨[], by simp [leftThenTail, hnil, henc, hleft], ?_,
      .inr ⟨rfl, hnil, helse, hhere, hip, ?_⟩⟩
    · rw [reservedBehind, henc, if_pos ⟨hnil, rfl⟩]
      simp [thenTailJmpLen, helse]
    obtain ⟨size, hsize', henc⟩ := Option.bind_eq_some_iff.1 henc
    obtain rfl : size = elseLen := Option.some.inj (hsize'.symm.trans hsize)
    have hjump := Option.some.inj henc
    rwa [saturatingAdd_of_lt (a := ip) (by omega), saturatingAdd_of_lt hip, Nat.add_assoc] at hjump

/-! ## The jumps of blocks -/

/-- A jump at the head of a block that is settled is encoded again in place. -/
theorem lowerSkip_settled (harch : RelativeJumps arch) {base base' ip i bodyLen : ℕ}
    {tailLen reserved reserved' : ℕ} {out bytes skip : Bytes} {label cond_text : Text}
    {body : List Stmt} (hbase : base = base' ∨ bytes ≠ [])
    (hset : bytes ≠ [] → SkipSettled checks arch (saturatingAdd base' out.length) ip cond_text
      bytes body tailLen bodyLen reserved)
    (hres : ∀ {x target b}, arch.encodeCondJump cond_text x target .default = .ok b →
      reserved' = reserved)
    (h : lowerSkip checks arch fnName (some base) i out label cond_text bytes
      (bodyLen + reserved) = .ok skip) :
    skip.length = condLen bytes ∧
      ∃ left, leftSkip checks arch ip cond_text bytes body tailLen = some left ∧
        condLen left = condLen bytes ∧
        lowerSkip checks arch fnName (some base') i out label cond_text left
          (bodyLen + reserved') = .ok skip := by
  by_cases hnil : bytes = []
  · -- The jump is encoded on both sides, for the same address.
    obtain rfl := hbase.resolve_right fun h => h hnil
    subst hnil
    obtain ⟨target, -, hjump⟩ := bind_eq_ok.1 h
    have hjump := liftArch_eq_ok.1 hjump
    rw [hres hjump]
    exact ⟨(harch.cond_slots hjump).1, [], rfl, rfl, h⟩
  obtain rfl : bytes = skip := by
    rw [lowerSkip, pinnedOr_of_ne_nil hnil] at h
    exact Except.ok.inj h
  have hlen : bytes.length = condLen bytes := by simp [condLen, hnil]
  refine ⟨hlen, ?_⟩
  obtain ⟨left, hleft, rfl | ⟨rfl, hhere, hip, hjump⟩⟩ := (hset hnil).exists_left hnil
  · refine ⟨left, hleft, rfl, ?_⟩
    rw [lowerSkip, pinnedOr_of_ne_nil hnil]
  -- The jump is cleared, and encoded for the address where it lands over the same distance.
  obtain ⟨hlen8, hslot, -⟩ := harch.cond_slots hjump
  refine ⟨[], hleft, by rw [← hlen, hlen8]; rfl, ?_⟩
  rw [hres hjump, lowerSkip, pinnedOr, if_pos rfl]
  rw [hslot, saturatingAdd_of_lt (a := ip) (by omega), saturatingAdd_of_lt (a := ip + 8) (by omega),
    saturatingAdd_of_lt hip,
    show ip + 8 + bodyLen + reserved = ip + (8 + bodyLen + reserved) by omega]
    at hjump
  have hhere' : saturatingAdd base' out.length + (8 + bodyLen + reserved) < wordSize := by omega
  refine bind_eq_ok.2 ⟨saturatingAdd base' out.length + (8 + bodyLen + reserved), ?_,
    liftArch_eq_ok.2 (harch.cond (by omega) hhere' hjump)⟩
  have htarget : saturatingAdd base' out.length + 8 + (bodyLen + reserved) =
      saturatingAdd base' out.length + (8 + bodyLen + reserved) := by omega
  simp only [ipAt, Option.elim_some, condLen, if_true, htarget]
  rw [checkOverflow, if_pos (by omega)]
  rfl

/-- A jump over an else-branch that is settled is encoded again in place. -/
theorem lowerThenTail_settled (harch : RelativeJumps arch) {base base' ip i elseLen : ℕ}
    {out then_tail_jmp left tail : Bytes} {label : Text} {else_body eb : List Stmt}
    (hbase : base = base' ∨ then_tail_jmp ≠ [] ∨ else_body = [])
    (hleft : left = then_tail_jmp ∨ left = [] ∧ then_tail_jmp ≠ [] ∧ else_body ≠ [] ∧
      saturatingAdd base' out.length + slotSize arch + elseLen < wordSize ∧
      ip + slotSize arch + elseLen < wordSize ∧
      arch.encodeJump ip (ip + (slotSize arch + elseLen)) .default = .ok then_tail_jmp)
    (heb : eb = [] ↔ else_body = [])
    (h : lowerThenTail checks arch fnName (some base) i out label then_tail_jmp else_body
      elseLen = .ok tail) :
    lowerThenTail checks arch fnName (some base') i out label left eb elseLen = .ok tail := by
  rcases hleft with rfl | ⟨rfl, hnil, helse, hhere, hip, hjump⟩
  · simp only [lowerThenTail, heb]
    by_cases hnil : left = []
    · by_cases helse : else_body = []
      · simpa only [lowerThenTail, hnil, helse, if_true] using h
      · obtain rfl := (hbase.resolve_right (by simp [hnil, helse]))
        exact h
    · rw [lowerThenTail, pinnedOr_of_ne_nil hnil] at h
      rw [pinnedOr_of_ne_nil hnil]
      exact h
  rw [lowerThenTail, pinnedOr_of_ne_nil hnil] at h
  obtain rfl := Except.ok.inj h
  simp only [lowerThenTail, pinnedOr, if_true, heb, helse, if_false, ipAt, Option.elim_some]
  rw [harch.jump_size (by omega)]
  refine bind_eq_ok.2 ⟨saturatingAdd base' out.length + (slotSize arch + elseLen), ?_,
    liftArch_eq_ok.2 (harch.jump (by omega) (by omega) (by omega) hjump)⟩
  rw [checkOverflow, if_pos (by omega), Nat.add_assoc]
  rfl

/-- A jump back to the head of a block that is settled is encoded again in place. -/
theorem lowerBackEdge_settled (harch : RelativeJumps arch) {base base' entryIp ip i len n : ℕ}
    {out tail_bytes tail : Bytes} {label : Text} (hout : out.length = n + len)
    (hbase : base = base' ∨ tail_bytes ≠ []) (hset : tail_bytes ≠ [] →
      BackEdgeSettled arch (saturatingAdd base' n) entryIp ip tail_bytes len)
    (h : lowerBackEdge arch fnName (some base) i out label tail_bytes (saturatingAdd base n) =
      .ok tail) :
    ∃ left, leftBackEdge arch ip entryIp tail_bytes = some left ∧
      (∀ {cond_text x target b}, arch.encodeCondJump cond_text x target .default = .ok b →
        tailBytesLen left = tailBytesLen tail_bytes) ∧
      lowerBackEdge arch fnName (some base') i out label left (saturatingAdd base' n) =
        .ok tail := by
  by_cases hnil : tail_bytes = []
  · obtain rfl := hbase.resolve_right fun h => h hnil
    exact ⟨[], by simp [leftBackEdge, hnil], fun _ => by rw [hnil], hnil ▸ h⟩
  obtain rfl : tail_bytes = tail := by
    rw [lowerBackEdge, pinnedOr_of_ne_nil hnil] at h
    exact Except.ok.inj h
  obtain ⟨hpanic, hfound⟩ := hset hnil
  obtain ⟨hleft, -⟩ | ⟨hleft, -, hjump⟩ := clearIf_of_ne_panic fun _ : tail_bytes ≠ [] => hpanic
  · refine ⟨tail_bytes, hleft, fun _ => rfl, ?_⟩
    rw [lowerBackEdge, pinnedOr_of_ne_nil hnil]
  obtain ⟨rfl, hip, hhere⟩ := hfound hjump
  refine ⟨[], hleft, fun hcond => ?_, ?_⟩
  · have hlen := (harch.cond_slots hcond).2.2 hjump
    simp [tailBytesLen, hnil, hlen]
  have hpos := List.length_pos_iff.2 hnil
  have hsum : saturatingAdd base' out.length = saturatingAdd base' n + len := by
    unfold saturatingAdd wordSize at *
    omega
  rw [lowerBackEdge, pinnedOr, if_pos rfl]
  simp only [ipAt, Option.elim_some, hsum]
  exact liftArch_eq_ok.2 (harch.back hip hhere hjump)

/-! ## In place, the bytes are the same -/

/-- The second pass leaves a statement where there was one. -/
theorem dropStmts_eq_nil_iff {ip : ℕ} {ss ts : List Stmt}
    (h : dropStmts checks arch ip ss = some ts) : ts = [] ↔ ss = [] := by
  cases ss with
  | nil => simp [← Option.some.inj h]
  | cons s ss =>
    obtain ⟨s', ss', -, -, h⟩ := steps₂_eq_some.1 h
    simp [← h]

/-- A statement that the pass leaves lowers alike at both addresses if they are one or it has no
place. -/
theorem lowerStmt_of_samePlace {base base' i : ℕ} {out o : Bytes} {s : Stmt}
    (h : base = base' ∨ stmtPlaceless arch s)
    (ho : lowerStmt checks arch fnName (some base) i out s = .ok o) :
    lowerStmt checks arch fnName (some base') i out s = .ok o := by
  rcases h with rfl | hfree
  · exact ho
  · rw [← ho]
    exact lowerStmt_eq_of_placeless (some base') (some base) i out s hfree

/-- A settled call is left as it is, or encoded again in place. -/
theorem lowers_of_callSettled {base base' ip i : ℕ} {out o bytes : Bytes} {name : Text}
    {args : List Text} {direct_target : Option UInt64}
    (hplace : base = base' ∨ stmtPlaceless arch (.call name args bytes direct_target))
    (hset : ∀ target, direct_target = some target → arch.directCallBytesContainCall →
      bytes.head? = some 0x85 → CallSettled arch base' out.length ip name bytes target)
    (ho : lowerStmt checks arch fnName (some base) i out
      (.call name args bytes direct_target) = .ok o) :
    ∃ left, leftCall arch ip bytes direct_target = some left ∧
      lowerStmt checks arch fnName (some base') i out (.call name args left direct_target) =
        .ok o := by
  have hsame := lowerStmt_of_samePlace hplace ho
  cases direct_target with
  | none => exact ⟨bytes, rfl, hsame⟩
  | some target =>
    by_cases hcompared : arch.directCallBytesContainCall ∧ bytes.head? = some 0x85
    · obtain ⟨hpanic, hfound⟩ := hset target rfl hcompared.1 hcompared.2
      have hleft : leftCall arch ip bytes (some target) =
          clearIf (arch.encodeCall ip target.toNat .default) bytes := if_pos hcompared
      obtain ⟨hclear, -⟩ | ⟨hclear, hnil, hcall⟩ :=
        clearIf_of_ne_panic fun _ : bytes ≠ [] => hpanic
      · exact ⟨bytes, hleft.trans hclear, hsame⟩
      refine ⟨[], hleft.trans hclear, ?_⟩
      obtain ⟨htail, haddr⟩ := hfound hcall
      -- Before the pass the bytes are the call, behind it they are encoded.
      obtain rfl : out ++ bytes = o := by
        simp only [lowerStmt, lowerDirectCall, htail, decide_false, hnil, hcompared.1] at ho
        simpa using ho
      simp only [lowerStmt, lowerDirectCall, htail, decide_false, Bool.false_eq_true, if_false,
        true_or, if_true, List.append_nil, checkedIp, Option.bind_some, haddr, bind, Except.bind,
        hcall, liftArch]
      rfl
    · exact ⟨bytes, if_neg hcompared, hsame⟩

mutual

/-- A statement that is settled is not lost in the pass, and what is left of it lowers to the same
bytes. -/
theorem lowers_of_stmtSettled (harch : RelativeJumps arch) {base base' ip i : ℕ} {out o : Bytes}
    {s : Stmt} (h : stmtSettled checks arch fnName base base' ip out s)
    (ho : lowerStmt checks arch fnName (some base) i out s = .ok o) :
    ∃ t, dropStmt checks arch ip s = some t ∧
      lowerStmt checks arch fnName (some base') i out t = .ok o := by
  cases s with
  | asm text bytes =>
    obtain ⟨hplace, hset⟩ := h
    have hsame := lowerStmt_of_samePlace hplace ho
    by_cases hnil : bytes = []
    · subst hnil
      exact ⟨.asm text [], by simp [dropStmt, leftAsm], hsame⟩
    obtain ⟨left, hleft, rfl | ⟨rfl, hland⟩⟩ := (hset hnil).exists_left hnil
    · exact ⟨.asm text left, map_eq_some_iff.2 ⟨left, hleft, rfl⟩, hsame⟩
    refine ⟨.asm text [], map_eq_some_iff.2 ⟨[], hleft, rfl⟩, ?_⟩
    rw [← ho]
    simp only [lowerStmt, pinnedOr_of_ne_nil hnil]
    simp only [pinnedOr, if_true, ipAt, Option.elim_some, hland, liftArch]
  | call name args bytes direct_target =>
    obtain ⟨left, hleft, hlower⟩ := lowers_of_callSettled h.1 h.2 ho
    exact ⟨_, map_eq_some_iff.2 ⟨left, hleft, rfl⟩, hlower⟩
  | move dst src bytes =>
    obtain ⟨left, hleft, heq⟩ := pinnedOr_clearIf (.archEncode fnName i "move".toList) h
    refine ⟨_, map_eq_some_iff.2 ⟨left, hleft, rfl⟩, ?_⟩
    rw [← ho]
    simp only [lowerStmt, heq]
  | regArith dst op src bytes =>
    obtain ⟨left, hleft, heq⟩ := pinnedOr_clearIf (.archEncode fnName i "arith".toList) h
    refine ⟨_, map_eq_some_iff.2 ⟨left, hleft, rfl⟩, ?_⟩
    rw [← ho]
    simp only [lowerStmt, heq]
  | «return» value bytes =>
    obtain ⟨left, hleft, heq⟩ := pinnedOr_clearIf (.archEncode fnName i "return".toList) h
    refine ⟨_, map_eq_some_iff.2 ⟨left, hleft, rfl⟩, ?_⟩
    rw [← ho]
    simp only [lowerStmt, heq]
  | ifBlock cond_text cond_bytes then_body then_tail_jmp else_body =>
    obtain ⟨hbase, hthen, hrest⟩ := h
    obtain ⟨thenBuf, elseBuf, hthenBuf, helseBuf, ho⟩ := bind₂_eq_ok.1 ho
    obtain ⟨hskipSet, htailSet, helse⟩ := hrest thenBuf elseBuf hthenBuf helseBuf
    obtain ⟨skip, tail, hskip, htail, ho⟩ := bind₂_eq_ok.1 ho
    obtain ⟨tb, htb, hthenBuf'⟩ := lowers_of_stmtsSettled harch hthen hthenBuf
    obtain ⟨eb, heb, helseBuf'⟩ := lowers_of_stmtsSettled harch helse helseBuf
    have hempty := dropStmts_eq_nil_iff heb
    obtain ⟨ttj, httj, hreserved, hleft⟩ := exists_leftThenTail htailSet
    have hlenEq : thenTailJmpLen ttj eb = thenTailJmpLen ttj else_body := by
      simp only [thenTailJmpLen, hempty]
    -- Where a jump over the then-branch is encoded, a cleared jump behind it had eight bytes.
    have hres : ∀ {x target b}, arch.encodeCondJump cond_text x target .default = .ok b →
        thenTailJmpLen ttj eb = thenTailJmpLen then_tail_jmp else_body := by
      intro x target b hcond
      rw [hlenEq]
      rcases hleft with rfl | ⟨rfl, hnil, helse, -, -, hjump⟩
      · rfl
      · have hlen := (harch.cond_slots hcond).2.2 hjump
        simp [thenTailJmpLen, hnil, helse, hlen]
    obtain ⟨hskipLen, cb, hcb, hcondLen, hskip'⟩ := lowerSkip_settled harch
      (hbase.imp_right And.left) hskipSet hres hskip
    have hlen : (out ++ skip ++ thenBuf).length =
      out.length + condLen cond_bytes + thenBuf.length := by
      simp only [List.length_append, hskipLen]
    have htail' := lowerThenTail_settled harch (hbase.imp_right And.right)
      (by rw [hlen]; exact hleft) hempty htail
    refine ⟨.ifBlock cond_text cb tb ttj eb, ?_, ?_⟩
    · simp only [dropStmt, hcb, htb, httj, heb, bind_eq_bind, bind_some, pure_def]
    refine bind₂_eq_ok.2 ⟨thenBuf, elseBuf, ?_, ?_, bind₂_eq_ok.2 ⟨skip, tail, hskip', htail', ho⟩⟩
    · rw [hcondLen]
      exact hthenBuf'
    · rw [hcondLen, hlenEq, hreserved]
      exact helseBuf'
  | whileBlock cond_text entry_bytes tail_bytes body =>
    obtain ⟨hbase, hbody, hrest⟩ := h
    obtain ⟨bodyBuf, hbodyBuf, ho⟩ := bind_eq_ok.1 ho
    obtain ⟨hskipSet, htailSet⟩ := hrest bodyBuf hbodyBuf
    obtain ⟨bb, hbb, hbodyBuf'⟩ := lowers_of_stmtsSettled harch hbody hbodyBuf
    obtain ⟨entry, tail, hentry, htail, ho⟩ := bind₂_eq_ok.1 ho
    have hentryLen : entry.length = condLen entry_bytes := by
      by_cases hnil : entry_bytes = []
      · subst hnil
        obtain ⟨target, -, hjump⟩ := bind_eq_ok.1 hentry
        exact (harch.cond_slots (liftArch_eq_ok.1 hjump)).1
      · rw [lowerSkip, pinnedOr_of_ne_nil hnil] at hentry
        rw [← Except.ok.inj hentry, condLen, if_neg hnil]
    obtain ⟨tb, htb, hres, htail'⟩ := lowerBackEdge_settled harch
      (by simp only [List.length_append, hentryLen, Nat.add_assoc]) (hbase.imp_right And.right)
      htailSet htail
    obtain ⟨-, cb, hcb, hcondLen, hentry'⟩ := lowerSkip_settled harch
      (hbase.imp_right And.left) hskipSet hres hentry
    refine ⟨.whileBlock cond_text cb tb bb, steps₃_eq_some.2 ⟨_, _, _, hcb, hbb, htb, rfl⟩, ?_⟩
    refine bind_eq_ok.2 ⟨bodyBuf, ?_, bind₂_eq_ok.2 ⟨entry, tail, hentry', htail', ho⟩⟩
    rw [hcondLen]
    exact hbodyBuf'
  | ifBranch cond_text cond_bytes attrs pre_body then_body else_body =>
    cases else_body with
    | none =>
      obtain ⟨hpre, hthen⟩ := h
      obtain ⟨mid, mid', hmid, hmid', ho⟩ := bind₂_eq_ok.1 ho
      obtain ⟨pb, hpb, hpb'⟩ := lowers_of_stmtsSettled harch hpre hmid
      obtain ⟨tb, htb, htb'⟩ := lowers_of_stmtsSettled harch (hthen mid hmid) hmid'
      exact ⟨.ifBranch cond_text cond_bytes attrs pb tb none,
        steps₂_eq_some.2 ⟨_, _, hpb, htb, rfl⟩, bind₂_eq_ok.2 ⟨mid, mid', hpb', htb', ho⟩⟩
    | some else_body =>
      obtain ⟨hpre, hrest⟩ := h
      obtain ⟨mid, mid', hmid, hmid', ho⟩ := bind₂_eq_ok.1 ho
      obtain ⟨hthen, helse⟩ := hrest mid hmid
      obtain ⟨pb, hpb, hpb'⟩ := lowers_of_stmtsSettled harch hpre hmid
      obtain ⟨tb, htb, htb'⟩ := lowers_of_stmtsSettled harch hthen hmid'
      obtain ⟨eb, heb, heb'⟩ := lowers_of_stmtsSettled harch (helse mid' hmid') ho
      exact ⟨.ifBranch cond_text cond_bytes attrs pb tb (some eb),
        steps₃_eq_some.2 ⟨_, _, _, hpb, htb, heb, rfl⟩, bind₂_eq_ok.2 ⟨mid, mid', hpb', htb', heb'⟩⟩
  | _ => exact ⟨_, rfl, lowerStmt_of_samePlace h ho⟩

/-- Settled statements are not lost in the pass, and what is left lowers to the same bytes. -/
theorem lowers_of_stmtsSettled (harch : RelativeJumps arch) {base base' ip i : ℕ} {out o : Bytes} :
    ∀ {ss : List Stmt}, stmtsSettled checks arch fnName base base' ip i out ss →
      lowerStmtsFrom checks arch fnName (some base) i out ss = .ok o →
      ∃ ts, dropStmts checks arch ip ss = some ts ∧
        lowerStmtsFrom checks arch fnName (some base') i out ts = .ok o
  | [], _, ho => ⟨[], rfl, ho⟩
  | s :: ss, ⟨hs, hss⟩, ho => by
    obtain ⟨mid, hmid, ho⟩ := bind_eq_ok.1 ho
    obtain ⟨t, ht, ht'⟩ := lowers_of_stmtSettled harch hs hmid
    obtain ⟨ts, hts, hts'⟩ := lowers_of_stmtsSettled harch (hss mid hmid) ho
    exact ⟨t :: ts, steps₂_eq_some.2 ⟨_, _, ht, hts, rfl⟩, bind_eq_ok.2 ⟨mid, ht', hts'⟩⟩

end

end Univdreams.Decompile
