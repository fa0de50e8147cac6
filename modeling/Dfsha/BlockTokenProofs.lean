import Dfsha.BlockStoreProofs
import Dfsha.ControlTreeProofs
import Dfsha.DelimitedProofs
import Mathlib.Algebra.Order.Floor.Semiring
import Mathlib.Data.Rat.Floor

/-! # Capabilities

    The signed permissions that the ControlNode hands out and a DataNode
    verifies: `b:<op>:<block_id>:<exp>.<hmac>` for a block and
    `i:<op>:<exp>.<hmac>` for an internal operation, under one key.

    Both texts are taken apart by delimiters, and the fields they are compared
    with come from the network.  Nothing is ambiguous: the signature has no
    dot, so the last dot is the one before it; and what was signed has no
    colon inside a field, so a signed text has the fields it was issued with.
    With an ideal MAC, what is accepted is what was issued.

    The one capability that is issued and not accepted is one with an expiry
    below zero: its text has a minus sign, which the check for digits refuses
    whatever the time is. -/

namespace DfshaBlockToken

open DfshaPath DfshaControlTree DfshaBlockStore

def blockOps : List String := ["read", "write", "delete"]

def internalOps : List String := ["list", "replicate"]

def missing : PyError := ⟨.accessDeniedError, "falta la capability"⟩

def invalid : PyError := ⟨.accessDeniedError, "capability inválida"⟩

def notAuthorized : PyError :=
  ⟨.accessDeniedError, "la capability no autoriza esta operación"⟩

def expired : PyError :=
  ⟨.accessDeniedError, "capability vencida: repite la operación"⟩

/-! ## Numbers as text -/

/-- The interpreter converts no number with more digits, in either direction. -/
def maxStrDigits : Nat := 4300

/-- `str(n)`. -/
def pyStr (n : Int) : Except PyError String :=
  if (Nat.toDigits 10 n.natAbs).length > maxStrDigits then .error ⟨.valueError,
    "Exceeds the limit (4300 digits) for integer string conversion; " ++
    "use sys.set_int_max_str_digits() to increase the limit"⟩
  else .ok ((if n < 0 then "-" else "") ++ String.ofList (Nat.toDigits 10 n.natAbs))

/-- `int(text)` of a text of digits. -/
def pyInt (text : String) : Except PyError Int :=
  if text.toList.length > maxStrDigits then .error ⟨.valueError,
    let digits := text.toList.length
    "Exceeds the limit (4300 digits) for integer string conversion: " ++
    s!"value has {digits} digits; use sys.set_int_max_str_digits() to increase the limit"⟩
  else .ok (Nat.ofDigitChars 10 text.toList 0)

/-! ## Issuing -/

/-- The ASCII characters. -/
def isAscii (cs : List Char) : Bool := cs.all fun c => c.toNat < 128

section Mac

-- HMAC-SHA256 under the key that the nodes share
variable (hmacSha256 : Bytes → Bytes)

/-- `hmac.new(key, payload.encode("ascii"), sha256).hexdigest()`. -/
def signature (payload : String) : String := hexDigest (hmacSha256 (encodeAscii payload))

def sign (payload : String) : String := payload ++ "." ++ signature hmacSha256 payload

def expiry (now ttlS : Time) : Except PyError String := pyStr ⌈now + ttlS⌉

/-- What `issue_block` signs. -/
def blockPayload (blockId op : String) (ttlS now : Time) : Except PyError String :=
  if op ∉ blockOps then
    .error ⟨.valueError, s!"operación de bloque desconocida: {pyRepr op}"⟩
  else if ¬ ValidBlockId blockId then
    .error ⟨.valueError, s!"block_id con formato inválido: {pyRepr blockId}"⟩
  else (expiry now ttlS).map fun exp => "b:" ++ op ++ ":" ++ blockId ++ ":" ++ exp

def issueBlock (blockId op : String) (ttlS now : Time) : Except PyError String :=
  (blockPayload blockId op ttlS now).map (sign hmacSha256)

/-- What `issue_internal` signs. -/
def internalPayload (op : String) (ttlS now : Time) : Except PyError String :=
  if op ∉ internalOps then
    .error ⟨.valueError, s!"operación interna desconocida: {pyRepr op}"⟩
  else (expiry now ttlS).map fun exp => "i:" ++ op ++ ":" ++ exp

def issueInternal (op : String) (ttlS now : Time) : Except PyError String :=
  (internalPayload op ttlS now).map (sign hmacSha256)

/-! ## Verifying -/

/-- What may arrive as a token: text, or a value that is not text, of which
    only the truth value is asked before `rpartition` or `encode` raises.
    Text with lone surrogates, which `encode` refuses, is of the second kind. -/
inductive Token where
  | text (s : String)
  | other (truthy : Bool)

/-- The fields of a token with a valid signature. -/
def verifiedFields (token : Token) : Except PyError (List String) :=
  match token with
  | .other truthy => if truthy then .error invalid else .error missing
  | .text s =>
      if s = "" then .error missing
      else match Delimited.splitLast '.' s.toList with
        | none => .error invalid
        | some (payload, sig) =>
            if isAscii payload && isAscii sig &&
                (signature hmacSha256 (String.ofList payload)).toList = sig then
              .ok ((payload.splitOn ':').map String.ofList)
            else .error invalid

/-- `_EXP.fullmatch`. -/
def isExp (exp : String) : Bool := exp.toList ≠ [] && exp.toList.all Char.isDigit

def checkExpiry (exp : String) (now : Time) : Except PyError Unit :=
  if isExp exp = false then .error notAuthorized
  else do
    let n ← pyInt exp
    if (n : Time) ≤ now then .error expired else .ok ()

def verifyBlock (token : Token) (blockId op : String) (now : Time) :
    Except PyError Unit := do
  match ← verifiedFields hmacSha256 token with
  | [tag, op', blockId', exp] =>
      if tag ≠ "b" ∨ op' ≠ op ∨ blockId' ≠ blockId then .error notAuthorized
      else checkExpiry exp now
  | _ => .error notAuthorized

def verifyInternal (token : Token) (op : String) (now : Time) : Except PyError Unit := do
  match ← verifiedFields hmacSha256 token with
  | [tag, op', exp] =>
      if tag ≠ "i" ∨ op' ≠ op then .error notAuthorized
      else checkExpiry exp now
  | _ => .error notAuthorized

end Mac

/-! ## The expiry -/

theorem isDigit_of_mem {n : Nat} {c : Char} (h : c ∈ Nat.toDigits 10 n) :
    c.isDigit = true := Nat.isDigit_of_mem_toDigits (by decide) (by decide) h

/-- The text of a number, and how long it is. -/
theorem pyStr_ok {n : Int} {exp : String} (h : pyStr n = .ok exp) :
    exp.toList = (if n < 0 then ['-'] else []) ++ Nat.toDigits 10 n.natAbs ∧
      (Nat.toDigits 10 n.natAbs).length ≤ maxStrDigits := by
  unfold pyStr at h
  by_cases hlen : (Nat.toDigits 10 n.natAbs).length > maxStrDigits
  · rw [if_pos hlen] at h
    cases h
  · rw [if_neg hlen] at h
    refine ⟨?_, not_lt.mp hlen⟩
    rw [← Except.ok.inj h, String.toList_append, String.toList_ofList]
    by_cases hneg : n < 0
    · rw [if_pos hneg, if_pos hneg]
      rfl
    · rw [if_neg hneg, if_neg hneg]
      rfl

/-- The text of a number is one of an expiry exactly when the number is not
    negative. -/
theorem isExp_pyStr {n : Int} {exp : String} (h : pyStr n = .ok exp) :
    isExp exp = true ↔ 0 ≤ n := by
  obtain ⟨hexp, _⟩ := pyStr_ok h
  unfold isExp
  rw [hexp]
  by_cases hneg : n < 0
  · rw [if_pos hneg]
    constructor
    · intro hdigits
      rw [Bool.and_eq_true, List.all_eq_true] at hdigits
      exact absurd (hdigits.2 '-' List.mem_cons_self) (by decide)
    · exact fun hn => absurd hneg (not_lt.mpr hn)
  · rw [if_neg hneg, List.nil_append]
    refine ⟨fun _ => not_lt.mp hneg, fun _ => ?_⟩
    rw [Bool.and_eq_true, List.all_eq_true]
    exact ⟨decide_eq_true Nat.toDigits_ne_nil, fun c hc => isDigit_of_mem hc⟩

/-- A number that is not negative is read back from its text. -/
theorem pyInt_pyStr {n : Int} {exp : String} (h : pyStr n = .ok exp) (hn : 0 ≤ n) :
    pyInt exp = .ok n := by
  obtain ⟨hexp, hlen⟩ := pyStr_ok h
  rw [if_neg (not_lt.mpr hn), List.nil_append] at hexp
  unfold pyInt
  rw [hexp, if_neg (not_lt.mpr hlen), Nat.ofDigitChars_toDigits (by decide) (by decide)]
  exact congrArg Except.ok (Int.natAbs_of_nonneg hn)

/-- **WHAT THE EXPIRY CHECK SAYS OF AN ISSUED EXPIRY.** -/
theorem checkExpiry_issued {n : Int} {exp : String} (h : pyStr n = .ok exp) (now : Time) :
    checkExpiry exp now =
      if n < 0 then .error notAuthorized
      else if (n : Time) ≤ now then .error expired else .ok () := by
  unfold checkExpiry
  by_cases hneg : n < 0
  · rw [if_pos hneg, if_pos]
    rw [← Bool.not_eq_true, isExp_pyStr h]
    exact not_le.mpr hneg
  · have hn : 0 ≤ n := not_lt.mp hneg
    rw [if_neg hneg, if_neg]
    · rw [pyInt_pyStr h hn]
      rfl
    · rw [Bool.not_eq_false]
      exact (isExp_pyStr h).mpr hn

/-! ## The fields -/

theorem digit_ne_colon {c : Char} (h : c.isDigit = true) : c ≠ ':' := by
  rintro rfl
  exact absurd h (by decide)

theorem colon_not_mem_pyStr {n : Int} {exp : String} (h : pyStr n = .ok exp) :
    ':' ∉ exp.toList := by
  obtain ⟨hexp, _⟩ := pyStr_ok h
  rw [hexp, List.mem_append]
  rintro (hsign | hdigit)
  · by_cases hneg : n < 0
    · rw [if_pos hneg] at hsign
      exact absurd hsign (by decide)
    · rw [if_neg hneg] at hsign
      exact absurd hsign List.not_mem_nil
  · exact digit_ne_colon (isDigit_of_mem hdigit) rfl

theorem colon_not_mem_blockId {blockId : String} (h : ValidBlockId blockId) :
    ':' ∉ blockId.toList := by
  intro hmem
  exact absurd (h.2 ':' hmem) (by decide)

theorem colon_not_mem_op {op : String} (h : op ∈ blockOps ∨ op ∈ internalOps) :
    ':' ∉ op.toList := by
  have hall : ∀ op ∈ blockOps ++ internalOps, ':' ∉ op.toList := by decide
  exact hall op (List.mem_append.mpr h)

/-- `":".join(fields).split(":")`, when no field has a colon. -/
theorem split_join {fields : List String} (hne : fields ≠ [])
    (h : ∀ f ∈ fields, ':' ∉ f.toList) :
    (([':'].intercalate (fields.map String.toList)).splitOn ':').map String.ofList
      = fields := by
  rw [List.splitOn_intercalate ':' ?_ ?_, List.map_map]
  · have hid : String.ofList ∘ String.toList = id := by
      funext f
      exact String.ofList_toList
    rw [hid, List.map_id]
  · intro l hl
    obtain ⟨f, hf, rfl⟩ := List.mem_map.mp hl
    exact h f hf
  · exact fun hnil => hne (List.map_eq_nil_iff.mp hnil)

/-- What is signed for a block. -/
theorem blockPayload_ok {blockId op payload : String} {ttlS now : Time}
    (h : blockPayload blockId op ttlS now = .ok payload) :
    op ∈ blockOps ∧ ValidBlockId blockId ∧ ∃ exp, expiry now ttlS = .ok exp ∧
      payload = "b:" ++ op ++ ":" ++ blockId ++ ":" ++ exp := by
  unfold blockPayload at h
  by_cases hop : op ∉ blockOps
  · rw [if_pos hop] at h
    cases h
  by_cases hid : ¬ ValidBlockId blockId
  · rw [if_neg hop, if_pos hid] at h
    cases h
  · rw [if_neg hop, if_neg hid] at h
    obtain ⟨exp, hexp, rfl⟩ := RaisingAction.map_eq_ok h
    exact ⟨not_not.mp hop, not_not.mp hid, exp, hexp, rfl⟩

/-- What is signed for an internal operation. -/
theorem internalPayload_ok {op payload : String} {ttlS now : Time}
    (h : internalPayload op ttlS now = .ok payload) :
    op ∈ internalOps ∧ ∃ exp, expiry now ttlS = .ok exp ∧
      payload = "i:" ++ op ++ ":" ++ exp := by
  unfold internalPayload at h
  by_cases hop : op ∉ internalOps
  · rw [if_pos hop] at h
    cases h
  · rw [if_neg hop] at h
    obtain ⟨exp, hexp, rfl⟩ := RaisingAction.map_eq_ok h
    exact ⟨not_not.mp hop, exp, hexp, rfl⟩

/-- The fields of a block capability are those it was issued with. -/
theorem fields_blockPayload {blockId op payload exp : String} {ttlS now : Time}
    (hop : op ∈ blockOps) (hid : ValidBlockId blockId) (hexp : expiry now ttlS = .ok exp)
    (hpayload : payload = "b:" ++ op ++ ":" ++ blockId ++ ":" ++ exp) :
    (payload.toList.splitOn ':').map String.ofList = ["b", op, blockId, exp] := by
  have hjoin : payload.toList
      = [':'].intercalate (["b", op, blockId, exp].map String.toList) := by
    rw [hpayload]
    simp [String.toList_append, List.intercalate]
  rw [hjoin]
  refine split_join (List.cons_ne_nil _ _) ?_
  intro f hf
  simp only [List.mem_cons, List.not_mem_nil, or_false] at hf
  rcases hf with rfl | rfl | rfl | rfl
  · decide
  · exact colon_not_mem_op (.inl hop)
  · exact colon_not_mem_blockId hid
  · exact colon_not_mem_pyStr hexp

/-- The fields of an internal capability are those it was issued with. -/
theorem fields_internalPayload {op payload exp : String} {ttlS now : Time}
    (hop : op ∈ internalOps) (hexp : expiry now ttlS = .ok exp)
    (hpayload : payload = "i:" ++ op ++ ":" ++ exp) :
    (payload.toList.splitOn ':').map String.ofList = ["i", op, exp] := by
  have hjoin : payload.toList
      = [':'].intercalate (["i", op, exp].map String.toList) := by
    rw [hpayload]
    simp [String.toList_append, List.intercalate]
  rw [hjoin]
  refine split_join (List.cons_ne_nil _ _) ?_
  intro f hf
  simp only [List.mem_cons, List.not_mem_nil, or_false] at hf
  rcases hf with rfl | rfl | rfl
  · decide
  · exact colon_not_mem_op (.inr hop)
  · exact colon_not_mem_pyStr hexp

/-! ## The signature -/

section Signature

variable (hmacSha256 : Bytes → Bytes)

theorem hexDigest_chars {digest : Bytes} {c : Char} (h : c ∈ (hexDigest digest).toList) :
    c ≠ '.' ∧ c.toNat < 128 := by
  have hdigit : ∀ n < 16, Nat.digitChar n ≠ '.' ∧ (Nat.digitChar n).toNat < 128 := by
    decide
  rw [hexDigest, String.toList_ofList, List.mem_flatMap] at h
  obtain ⟨b, _, hc⟩ := h
  have hb : b.toNat < 256 := b.toNat_lt
  simp only [List.mem_cons, List.not_mem_nil, or_false] at hc
  rcases hc with rfl | rfl
  · exact hdigit _ (by omega)
  · exact hdigit _ (by omega)

theorem dot_not_mem_signature (payload : String) :
    '.' ∉ (signature hmacSha256 payload).toList :=
  fun h => (hexDigest_chars h).1 rfl

theorem isAscii_signature (payload : String) :
    isAscii (signature hmacSha256 payload).toList = true := by
  rw [isAscii, List.all_eq_true]
  exact fun c hc => decide_eq_true (hexDigest_chars hc).2

theorem toList_sign (payload : String) : (sign hmacSha256 payload).toList
    = payload.toList ++ '.' :: (signature hmacSha256 payload).toList := by
  rw [sign, String.toList_append, String.toList_append, List.append_assoc]
  rfl

theorem splitLast_sign (payload : String) :
    Delimited.splitLast '.' (sign hmacSha256 payload).toList
      = some (payload.toList, (signature hmacSha256 payload).toList) :=
  Delimited.splitLast_eq_some.mpr
    ⟨toList_sign hmacSha256 payload, dot_not_mem_signature hmacSha256 payload⟩

theorem sign_inj {p q : String} (h : sign hmacSha256 p = sign hmacSha256 q) : p = q := by
  have hsplit := splitLast_sign hmacSha256 p
  rw [h, splitLast_sign] at hsplit
  exact String.toList_inj.mp (Prod.mk.inj (Option.some.inj hsplit)).1.symm

/-- **THE FIELDS OF A TOKEN ARE GIVEN OUT ONLY IF IT IS SIGNED.** -/
theorem verifiedFields_eq_ok {token : Token} {fields : List String} :
    verifiedFields hmacSha256 token = .ok fields ↔ ∃ payload,
      token = .text (sign hmacSha256 payload) ∧ isAscii payload.toList = true ∧
      fields = (payload.toList.splitOn ':').map String.ofList := by
  constructor
  · intro h
    cases token with
    | other truthy =>
        rw [verifiedFields] at h
        cases truthy <;> cases h
    | text s =>
        rw [verifiedFields] at h
        by_cases hempty : s = ""
        · rw [if_pos hempty] at h
          cases h
        rw [if_neg hempty] at h
        cases hsplit : Delimited.splitLast '.' s.toList with
        | none =>
            rw [hsplit] at h
            cases h
        | some parts =>
            obtain ⟨payload, sig⟩ := parts
            simp only [hsplit] at h
            by_cases hvalid : (isAscii payload && isAscii sig &&
                (signature hmacSha256 (String.ofList payload)).toList = sig) = true
            · rw [if_pos hvalid] at h
              rw [Bool.and_eq_true, Bool.and_eq_true, decide_eq_true_eq] at hvalid
              obtain ⟨⟨hascii, _⟩, hsig⟩ := hvalid
              refine ⟨String.ofList payload, ?_, ?_, ?_⟩
              · refine congrArg Token.text (String.toList_inj.mp ?_)
                rw [toList_sign, hsig, String.toList_ofList]
                exact (Delimited.splitLast_eq_some.mp hsplit).1
              · rw [String.toList_ofList]
                exact hascii
              · rw [String.toList_ofList]
                exact (Except.ok.inj h).symm
            · rw [if_neg hvalid] at h
              cases h
  · rintro ⟨payload, rfl, hascii, rfl⟩
    have hne : sign hmacSha256 payload ≠ "" := by
      intro hempty
      have hlist := toList_sign hmacSha256 payload
      rw [hempty] at hlist
      exact absurd hlist.symm (List.append_ne_nil_of_right_ne_nil _ (List.cons_ne_nil _ _))
    have hvalid : (isAscii payload.toList && isAscii (signature hmacSha256 payload).toList &&
        (signature hmacSha256 (String.ofList payload.toList)).toList
          = (signature hmacSha256 payload).toList) = true := by
      rw [String.ofList_toList, hascii, isAscii_signature, Bool.true_and, Bool.true_and]
      exact decide_eq_true rfl
    rw [verifiedFields, if_neg hne, splitLast_sign]
    exact if_pos hvalid

/-- A token that is not signed is refused with one class of error. -/
theorem verifiedFields_error {token : Token} {e : PyError}
    (h : verifiedFields hmacSha256 token = .error e) : e.cls = .accessDeniedError := by
  cases token with
  | other truthy =>
      cases truthy <;> (rw [← Except.error.inj h]; rfl)
  | text s =>
      rw [verifiedFields] at h
      by_cases hempty : s = ""
      · rw [if_pos hempty] at h
        rw [← Except.error.inj h]
        rfl
      rw [if_neg hempty] at h
      cases hsplit : Delimited.splitLast '.' s.toList with
      | none =>
          rw [hsplit] at h
          rw [← Except.error.inj h]
          rfl
      | some parts =>
          obtain ⟨payload, sig⟩ := parts
          simp only [hsplit] at h
          by_cases hvalid : (isAscii payload && isAscii sig &&
              (signature hmacSha256 (String.ofList payload)).toList = sig) = true
          · rw [if_pos hvalid] at h
            cases h
          · rw [if_neg hvalid] at h
            rw [← Except.error.inj h]
            rfl

end Signature

/-! ## What is accepted -/

theorem isAscii_append {xs ys : List Char} :
    isAscii (xs ++ ys) = (isAscii xs && isAscii ys) := List.all_append

theorem isAscii_of_op {op : String} (h : op ∈ blockOps ∨ op ∈ internalOps) :
    isAscii op.toList = true := by
  have hall : ∀ op ∈ blockOps ++ internalOps, isAscii op.toList = true := by decide
  exact hall op (List.mem_append.mpr h)

theorem isAscii_of_blockId {blockId : String} (h : ValidBlockId blockId) :
    isAscii blockId.toList = true := by
  rw [isAscii, List.all_eq_true]
  intro c hc
  refine decide_eq_true ?_
  have hle : ∀ {a b : Char}, a ≤ b → a.toNat ≤ b.toNat := fun hab => hab
  rcases h.2 c hc with ⟨_, hhigh⟩ | ⟨_, hhigh⟩
  · exact lt_of_le_of_lt (hle hhigh) (by decide)
  · exact lt_of_le_of_lt (hle hhigh) (by decide)

theorem isAscii_pyStr {n : Int} {exp : String} (h : pyStr n = .ok exp) :
    isAscii exp.toList = true := by
  obtain ⟨hexp, _⟩ := pyStr_ok h
  have hdigits : isAscii (Nat.toDigits 10 n.natAbs) = true := by
    rw [isAscii, List.all_eq_true]
    intro c hc
    have hdigit := isDigit_of_mem hc
    rw [Char.isDigit, Bool.and_eq_true, decide_eq_true_eq, decide_eq_true_eq] at hdigit
    exact decide_eq_true (lt_of_le_of_lt (show c.toNat ≤ '9'.toNat from hdigit.2) (by decide))
  rw [hexp, isAscii_append, hdigits, Bool.and_true]
  by_cases hneg : n < 0
  · rw [if_pos hneg]
    decide
  · rw [if_neg hneg]
    rfl

/-- A call of `issue_block` or of `issue_internal`. -/
inductive Issue where
  | block (blockId op : String) (ttlS now : Time)
  | internal (op : String) (ttlS now : Time)

/-- What the call passes to `_sign`, if it gets there. -/
def Issue.payload : Issue → Except PyError String
  | .block blockId op ttlS now => blockPayload blockId op ttlS now
  | .internal op ttlS now => internalPayload op ttlS now

/-- The MAC is ideal as far as a token goes: if the token carries the
    signature of a payload, the payload was passed to `_sign`. -/
def Unforged (hmacSha256 : Bytes → Bytes) (issues : Set Issue) (token : Token) : Prop :=
  ∀ payload, token = .text (sign hmacSha256 payload) →
    ∃ i ∈ issues, i.payload = .ok payload

section Accepted

variable {hmacSha256 : Bytes → Bytes} {issues : Set Issue} {token : Token} {now : Time}

/-- The fields of an issued block capability. -/
theorem verifiedFields_block {blockId op payload : String} {ttlS t : Time}
    (h : blockPayload blockId op ttlS t = .ok payload) :
    ∃ exp, expiry t ttlS = .ok exp ∧
      verifiedFields hmacSha256 (.text (sign hmacSha256 payload))
        = .ok ["b", op, blockId, exp] := by
  obtain ⟨hop, hid, exp, hexp, hpayload⟩ := blockPayload_ok h
  refine ⟨exp, hexp, (verifiedFields_eq_ok hmacSha256).mpr
    ⟨payload, rfl, ?_, (fields_blockPayload hop hid hexp hpayload).symm⟩⟩
  rw [hpayload]
  simp only [String.toList_append, isAscii_append, isAscii_of_op (.inl hop),
    isAscii_of_blockId hid, isAscii_pyStr hexp, Bool.and_true]
  decide

/-- The fields of an issued internal capability. -/
theorem verifiedFields_internal {op payload : String} {ttlS t : Time}
    (h : internalPayload op ttlS t = .ok payload) :
    ∃ exp, expiry t ttlS = .ok exp ∧
      verifiedFields hmacSha256 (.text (sign hmacSha256 payload))
        = .ok ["i", op, exp] := by
  obtain ⟨hop, exp, hexp, hpayload⟩ := internalPayload_ok h
  refine ⟨exp, hexp, (verifiedFields_eq_ok hmacSha256).mpr
    ⟨payload, rfl, ?_, (fields_internalPayload hop hexp hpayload).symm⟩⟩
  rw [hpayload]
  simp only [String.toList_append, isAscii_append, isAscii_of_op (.inr hop),
    isAscii_pyStr hexp, Bool.and_true]
  decide

/-- What `verify_block` says of a block capability. -/
theorem verifyBlock_issued {blockId op blockId' op' payload : String} {ttlS t : Time}
    (h : blockPayload blockId' op' ttlS t = .ok payload) :
    verifyBlock hmacSha256 (.text (sign hmacSha256 payload)) blockId op now =
      if op' ≠ op ∨ blockId' ≠ blockId then .error notAuthorized
      else if ⌈t + ttlS⌉ < 0 then .error notAuthorized
      else if (⌈t + ttlS⌉ : Time) ≤ now then .error expired else .ok () := by
  obtain ⟨exp, hexp, hfields⟩ := verifiedFields_block h
  rw [verifyBlock, hfields, ← checkExpiry_issued hexp]
  show (if "b" ≠ "b" ∨ op' ≠ op ∨ blockId' ≠ blockId then Except.error notAuthorized
    else checkExpiry exp now) = _
  by_cases hsame : op' ≠ op ∨ blockId' ≠ blockId
  · rw [if_pos hsame, if_pos (.inr hsame)]
  · rw [if_neg hsame, if_neg (not_or.mpr ⟨not_not.mpr rfl, hsame⟩)]

/-- What `verify_internal` says of an internal capability. -/
theorem verifyInternal_issued {op op' payload : String} {ttlS t : Time}
    (h : internalPayload op' ttlS t = .ok payload) :
    verifyInternal hmacSha256 (.text (sign hmacSha256 payload)) op now =
      if op' ≠ op then .error notAuthorized
      else if ⌈t + ttlS⌉ < 0 then .error notAuthorized
      else if (⌈t + ttlS⌉ : Time) ≤ now then .error expired else .ok () := by
  obtain ⟨exp, hexp, hfields⟩ := verifiedFields_internal h
  rw [verifyInternal, hfields, ← checkExpiry_issued hexp]
  show (if "i" ≠ "i" ∨ op' ≠ op then Except.error notAuthorized
    else checkExpiry exp now) = _
  by_cases hsame : op' ≠ op
  · rw [if_pos hsame, if_pos (.inr hsame)]
  · rw [if_neg hsame, if_neg (not_or.mpr ⟨not_not.mpr rfl, hsame⟩)]

/-- A capability of one family is not one of the other. -/
theorem verifyBlock_internal {blockId op op' payload : String} {ttlS t : Time}
    (h : internalPayload op' ttlS t = .ok payload) :
    verifyBlock hmacSha256 (.text (sign hmacSha256 payload)) blockId op now
      = .error notAuthorized := by
  obtain ⟨exp, hexp, hfields⟩ := verifiedFields_internal h
  rw [verifyBlock, hfields]
  rfl

theorem verifyInternal_block {blockId' op op' payload : String} {ttlS t : Time}
    (h : blockPayload blockId' op' ttlS t = .ok payload) :
    verifyInternal hmacSha256 (.text (sign hmacSha256 payload)) op now
      = .error notAuthorized := by
  obtain ⟨exp, hexp, hfields⟩ := verifiedFields_block h
  rw [verifyInternal, hfields]
  rfl

/-- An answer after both checks: authorized, and alive. -/
theorem verdict_eq_ok {P : Prop} [Decidable P] {n : Int} :
    (if P then Except.error notAuthorized
      else if n < 0 then .error notAuthorized
      else if (n : Time) ≤ now then .error expired else .ok ()) = .ok () ↔
      ¬P ∧ 0 ≤ n ∧ now < n := by
  by_cases hP : P
  · rw [if_pos hP]
    exact ⟨fun h => (by cases h), fun h => absurd hP h.1⟩
  rw [if_neg hP]
  by_cases hneg : n < 0
  · rw [if_pos hneg]
    exact ⟨fun h => (by cases h), fun h => absurd hneg (not_lt.mpr h.2.1)⟩
  rw [if_neg hneg]
  by_cases hdead : (n : Time) ≤ now
  · rw [if_pos hdead]
    exact ⟨fun h => (by cases h), fun h => absurd hdead (not_le.mpr h.2.2)⟩
  · rw [if_neg hdead]
    exact ⟨fun _ => ⟨hP, not_lt.mp hneg, not_le.mp hdead⟩, fun _ => rfl⟩

theorem verdict_error {P : Prop} [Decidable P] {n : Int} {e : PyError}
    (h : (if P then Except.error notAuthorized
      else if n < 0 then .error notAuthorized
      else if (n : Time) ≤ now then .error expired else .ok ()) = .error e) :
    e.cls = .accessDeniedError := by
  by_cases hP : P
  · rw [if_pos hP] at h
    rw [← Except.error.inj h]
    rfl
  rw [if_neg hP] at h
  by_cases hneg : n < 0
  · rw [if_pos hneg] at h
    rw [← Except.error.inj h]
    rfl
  rw [if_neg hneg] at h
  by_cases hdead : (n : Time) ≤ now
  · rw [if_pos hdead] at h
    rw [← Except.error.inj h]
    rfl
  · rw [if_neg hdead] at h
    cases h

/-- A token that gets past its signature carries what an issue signed. -/
theorem issued_of_fields (hideal : Unforged hmacSha256 issues token) {fields : List String}
    (h : verifiedFields hmacSha256 token = .ok fields) :
    ∃ i ∈ issues, ∃ payload, i.payload = .ok payload ∧
      token = .text (sign hmacSha256 payload) := by
  obtain ⟨payload, htoken, _, _⟩ := (verifiedFields_eq_ok hmacSha256).mp h
  obtain ⟨i, hi, hpayload⟩ := hideal payload htoken
  exact ⟨i, hi, payload, hpayload, htoken⟩

/-- The fields have been verified, if the answer of `verify_block` is not an
    error of `_verified_fields`. -/
theorem fields_of_verifyBlock {blockId op : String} {r : Except PyError Unit}
    (h : verifyBlock hmacSha256 token blockId op now = r) :
    (∃ fields, verifiedFields hmacSha256 token = .ok fields) ∨
      ∃ e, verifiedFields hmacSha256 token = .error e ∧ r = .error e := by
  cases hfields : verifiedFields hmacSha256 token with
  | ok fields => exact .inl ⟨fields, rfl⟩
  | error e =>
      rw [verifyBlock, hfields] at h
      exact .inr ⟨e, rfl, h.symm⟩

theorem fields_of_verifyInternal {op : String} {r : Except PyError Unit}
    (h : verifyInternal hmacSha256 token op now = r) :
    (∃ fields, verifiedFields hmacSha256 token = .ok fields) ∨
      ∃ e, verifiedFields hmacSha256 token = .error e ∧ r = .error e := by
  cases hfields : verifiedFields hmacSha256 token with
  | ok fields => exact .inl ⟨fields, rfl⟩
  | error e =>
      rw [verifyInternal, hfields] at h
      exact .inr ⟨e, rfl, h.symm⟩

/-- **A BLOCK CAPABILITY IS ACCEPTED IF AND ONLY IF IT WAS ISSUED** for the
    block and the operation and has not expired. -/
theorem verifyBlock_ok_iff (hideal : Unforged hmacSha256 issues token) {blockId op : String} :
    verifyBlock hmacSha256 token blockId op now = .ok () ↔
      ∃ ttlS t s, Issue.block blockId op ttlS t ∈ issues ∧
        issueBlock hmacSha256 blockId op ttlS t = .ok s ∧ token = .text s ∧
        0 ≤ ⌈t + ttlS⌉ ∧ now < (⌈t + ttlS⌉ : Time) := by
  constructor
  · intro h
    rcases fields_of_verifyBlock h with ⟨fields, hfields⟩ | ⟨e, _, he⟩
    · obtain ⟨i, hi, payload, hpayload, rfl⟩ := issued_of_fields hideal hfields
      cases i with
      | block blockId' op' ttlS t =>
          rw [verifyBlock_issued hpayload, verdict_eq_ok] at h
          obtain ⟨hsame, hpos, halive⟩ := h
          obtain ⟨hop, hid⟩ := not_or.mp hsame
          obtain rfl := not_not.mp hop
          obtain rfl := not_not.mp hid
          refine ⟨ttlS, t, _, hi, ?_, rfl, hpos, halive⟩
          rw [issueBlock, show blockPayload blockId' op' ttlS t = .ok payload from hpayload]
          rfl
      | internal op' ttlS t =>
          rw [verifyBlock_internal hpayload] at h
          cases h
    · cases he
  · rintro ⟨ttlS, t, s, _, hissue, rfl, hpos, halive⟩
    obtain ⟨payload, hpayload, rfl⟩ := RaisingAction.map_eq_ok hissue
    rw [verifyBlock_issued hpayload, verdict_eq_ok]
    exact ⟨not_or.mpr ⟨not_not.mpr rfl, not_not.mpr rfl⟩, hpos, halive⟩

/-- **AN INTERNAL CAPABILITY IS ACCEPTED IF AND ONLY IF IT WAS ISSUED** for the
    operation and has not expired. -/
theorem verifyInternal_ok_iff (hideal : Unforged hmacSha256 issues token) {op : String} :
    verifyInternal hmacSha256 token op now = .ok () ↔
      ∃ ttlS t s, Issue.internal op ttlS t ∈ issues ∧
        issueInternal hmacSha256 op ttlS t = .ok s ∧ token = .text s ∧
        0 ≤ ⌈t + ttlS⌉ ∧ now < (⌈t + ttlS⌉ : Time) := by
  constructor
  · intro h
    rcases fields_of_verifyInternal h with ⟨fields, hfields⟩ | ⟨e, _, he⟩
    · obtain ⟨i, hi, payload, hpayload, rfl⟩ := issued_of_fields hideal hfields
      cases i with
      | block blockId' op' ttlS t =>
          rw [verifyInternal_block hpayload] at h
          cases h
      | internal op' ttlS t =>
          rw [verifyInternal_issued hpayload, verdict_eq_ok] at h
          obtain ⟨hop, hpos, halive⟩ := h
          obtain rfl := not_not.mp hop
          refine ⟨ttlS, t, _, hi, ?_, rfl, hpos, halive⟩
          rw [issueInternal, show internalPayload op' ttlS t = .ok payload from hpayload]
          rfl
    · cases he
  · rintro ⟨ttlS, t, s, _, hissue, rfl, hpos, halive⟩
    obtain ⟨payload, hpayload, rfl⟩ := RaisingAction.map_eq_ok hissue
    rw [verifyInternal_issued hpayload, verdict_eq_ok]
    exact ⟨not_not.mpr rfl, hpos, halive⟩

/-- Whatever is not accepted is refused with `AccessDeniedError`. -/
theorem verifyBlock_error (hideal : Unforged hmacSha256 issues token) {blockId op : String}
    {e : PyError} (h : verifyBlock hmacSha256 token blockId op now = .error e) :
    e.cls = .accessDeniedError := by
  rcases fields_of_verifyBlock h with ⟨fields, hfields⟩ | ⟨e', hfields, he⟩
  · obtain ⟨i, _, payload, hpayload, rfl⟩ := issued_of_fields hideal hfields
    cases i with
    | block =>
        rw [verifyBlock_issued hpayload] at h
        exact verdict_error h
    | internal =>
        rw [verifyBlock_internal hpayload] at h
        rw [← Except.error.inj h]
        rfl
  · rw [Except.error.inj he]
    exact verifiedFields_error hmacSha256 hfields

theorem verifyInternal_error (hideal : Unforged hmacSha256 issues token) {op : String}
    {e : PyError} (h : verifyInternal hmacSha256 token op now = .error e) :
    e.cls = .accessDeniedError := by
  rcases fields_of_verifyInternal h with ⟨fields, hfields⟩ | ⟨e', hfields, he⟩
  · obtain ⟨i, _, payload, hpayload, rfl⟩ := issued_of_fields hideal hfields
    cases i with
    | block =>
        rw [verifyInternal_block hpayload] at h
        rw [← Except.error.inj h]
        rfl
    | internal =>
        rw [verifyInternal_issued hpayload] at h
        exact verdict_error h
  · rw [Except.error.inj he]
    exact verifiedFields_error hmacSha256 hfields

/-- **WHAT IS ACCEPTED IS WHAT WAS ISSUED**, in both families, for every token
    and every block id, operation and time; and every refusal is an
    `AccessDeniedError`. -/
theorem accepted_iff_issued (hideal : Unforged hmacSha256 issues token) :
    (∀ blockId op, verifyBlock hmacSha256 token blockId op now = .ok () ↔
      ∃ ttlS t s, Issue.block blockId op ttlS t ∈ issues ∧
        issueBlock hmacSha256 blockId op ttlS t = .ok s ∧ token = .text s ∧
        0 ≤ ⌈t + ttlS⌉ ∧ now < (⌈t + ttlS⌉ : Time)) ∧
    (∀ op, verifyInternal hmacSha256 token op now = .ok () ↔
      ∃ ttlS t s, Issue.internal op ttlS t ∈ issues ∧
        issueInternal hmacSha256 op ttlS t = .ok s ∧ token = .text s ∧
        0 ≤ ⌈t + ttlS⌉ ∧ now < (⌈t + ttlS⌉ : Time)) ∧
    (∀ blockId op e, verifyBlock hmacSha256 token blockId op now = .error e →
      e.cls = .accessDeniedError) ∧
    ∀ op e, verifyInternal hmacSha256 token op now = .error e →
      e.cls = .accessDeniedError :=
  ⟨fun _ _ => verifyBlock_ok_iff hideal, fun _ => verifyInternal_ok_iff hideal,
    fun _ _ _ => verifyBlock_error hideal, fun _ _ => verifyInternal_error hideal⟩

end Accepted

def someBlock : String := "aaaaaaaaaaaaaaaaaaaaaaaaaaaaaaaa"

/-- HMAC-SHA256 under a key of 32 times `k`, on the two payloads used here. -/
def someHmac (message : Bytes) : Bytes :=
  if message = encodeAscii ("b:read:" ++ someBlock ++ ":1060") then
    [214, 31, 229, 109, 206, 18, 37, 9, 218, 76, 3, 195, 103, 180, 132, 68, 203, 70, 10, 42,
     190, 68, 179, 253, 198, 200, 214, 48, 122, 50, 97, 127]
  else if message = encodeAscii ("b:read:" ++ someBlock ++ ":-50") then
    [33, 224, 13, 3, 66, 171, 105, 26, 172, 252, 189, 224, 20, 18, 20, 133, 162, 201, 226,
     40, 86, 230, 129, 201, 128, 7, 76, 15, 52, 48, 241, 32]
  else []

/-- The one capability that was issued is accepted until it expires, and for
    nothing else. -/
theorem accepted_iff_issued_read :
    verifyBlock someHmac (.text (sign someHmac ("b:read:" ++ someBlock ++ ":1060")))
      someBlock "read" 1059 = .ok () ∧
    verifyBlock someHmac (.text (sign someHmac ("b:read:" ++ someBlock ++ ":1060")))
      someBlock "write" 1059 ≠ .ok () := by
  have hissue : issueBlock someHmac someBlock "read" 60 1000
      = .ok (sign someHmac ("b:read:" ++ someBlock ++ ":1060")) := by decide +kernel
  have hideal : Unforged someHmac {Issue.block someBlock "read" 60 1000}
      (.text (sign someHmac ("b:read:" ++ someBlock ++ ":1060"))) := by
    intro payload hpayload
    refine ⟨_, Set.mem_singleton _, ?_⟩
    rw [← sign_inj someHmac (Token.text.inj hpayload)]
    decide +kernel
  have h := @accepted_iff_issued _ _ _ 1059 hideal
  refine ⟨(h.1 someBlock "read").mpr ⟨60, 1000, _, Set.mem_singleton _, hissue, rfl,
    by decide +kernel, by decide +kernel⟩, ?_⟩
  intro hwrite
  obtain ⟨_, _, _, hmem, _⟩ := (h.1 someBlock "write").mp hwrite
  obtain ⟨_, hop, _⟩ := Issue.block.inj (Set.mem_singleton_iff.mp hmem)
  exact absurd hop (by decide)

/-- **AN EXPIRY BELOW ZERO IS NOT ACCEPTED**, even before it: the capability
    was issued for the block and the operation, and expires ten seconds later. -/
theorem negative_expiry_is_refused :
    issueBlock someHmac someBlock "read" 50 (-100)
      = .ok (sign someHmac ("b:read:" ++ someBlock ++ ":-50")) ∧
    (-60 : Time) < (⌈(-100 : Time) + 50⌉ : Int) ∧
    verifyBlock someHmac (.text (sign someHmac ("b:read:" ++ someBlock ++ ":-50")))
      someBlock "read" (-60) = .error notAuthorized := by
  refine ⟨by decide +kernel, by decide +kernel, by decide +kernel⟩

end DfshaBlockToken
