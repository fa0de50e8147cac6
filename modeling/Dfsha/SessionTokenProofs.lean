import Dfsha.PublicAddressesProofs
import Mathlib.Logic.Equiv.List

/-! # Session tokens

    A session is a token that the client carries: the user, its groups,
    whether it is an admin, and an expiry, signed under a secret that the
    control nodes share.  A node believes what a token says once signature and
    date are verified; it does not look at the tree.

    The signature and its text are those of a library.  What the code relies
    on is that it reads back what was written under the same secret, as long
    as it has not expired, and that its text can travel in a header.  That
    nobody else writes under the secret is a condition on what is presented. -/

namespace DfshaSessionToken

open Delimited DfshaControlTree
open DfshaPublicAddresses (strip isSpace)

/-- Who calls, as a verified token says. -/
structure Principal where
  username : String
  groups : List String
  isAdmin : Bool
deriving DecidableEq

/-- What `issue_token` signs. -/
structure Claims where
  sub : String
  groups : List String
  admin : Bool
  exp : Int
deriving DecidableEq

inductive Json where
  | null
  | bool (b : Bool)
  | number (n : ℚ)
  | text (s : String)
  | array (items : List Json)
  | object (fields : List (String × Json))

/-- A payload that `jwt.decode` returns: with a `sub` that is text, and other
    fields of any form, or without them. -/
structure Payload where
  sub : String
  groups : Option Json
  admin : Option Json

inductive JwtError where
  | expiredSignature
  | invalidToken

/-- PyJWT with HS256 under the secret of the control nodes. -/
structure Jwt where
  encode : Claims → String
  decode : String → Time → Except JwtError Payload

/-! ## Issuing and verifying -/

section Code

variable (jwt : Jwt)

/-- `issue_token`. -/
def issued (principal : Principal) (ttlS now : Time) : Claims where
  sub := principal.username
  groups := principal.groups
  admin := principal.isAdmin
  exp := ⌈now + ttlS⌉

def issueToken (principal : Principal) (ttlS now : Time) : String :=
  jwt.encode (issued principal ttlS now)

def textOf : Json → Option String
  | .text s => some s
  | _ => none

/-- `payload.get("groups", [])`, if it is a list of texts. -/
def groupsOf : Option Json → Option (List String)
  | none => some []
  | some (.array items) => items.mapM textOf
  | some _ => none

/-- `payload.get("admin", False)`, if it is a truth value. -/
def adminOf : Option Json → Option Bool
  | none => some false
  | some (.bool b) => some b
  | some _ => none

/-- `verify_token`; the error is the text of the `AuthError`. -/
def verifyToken (token : String) (now : Time) : Except String Principal :=
  if token = "" then .error "falta el token"
  else match jwt.decode token now with
    | .error .expiredSignature => .error "token vencido"
    | .error .invalidToken => .error "token inválido"
    | .ok payload =>
        match groupsOf payload.groups, adminOf payload.admin with
        | some groups, some isAdmin => .ok ⟨payload.sub, groups, isAdmin⟩
        | _, _ => .error "token inválido"

/-- The token of an `authorization` header. -/
def bearerToken (header : String) : Option String :=
  let scheme := header.toList.takeWhile (· ≠ ' ')
  let token := strip ((header.toList.dropWhile (· ≠ ' ')).drop 1)
  if scheme.map Char.toLower ≠ "bearer".toList ∨ token = [] then none
  else some (String.ofList token)

/-- `_authenticate` on a node with a secret. -/
def authenticateHeader (header : String) (now : Time) : Except String Principal :=
  match bearerToken header with
  | none => .error "falta el token de sesión"
  | some token => verifyToken jwt token now

/-- The header that the client sends after `login`. -/
def bearerHeader (token : String) : String := "Bearer " ++ token

end Code

/-! ## What the code relies on -/

/-- The payload of issued claims. -/
def Claims.payload (claims : Claims) : Payload where
  sub := claims.sub
  groups := some (.array (claims.groups.map .text))
  admin := some (.bool claims.admin)

def Claims.principal (claims : Claims) : Principal :=
  ⟨claims.sub, claims.groups, claims.admin⟩

/-- What is written is read back until it expires, and it is a text without
    blanks. -/
structure Lawful (jwt : Jwt) : Prop where
  decode_encode : ∀ claims now, jwt.decode (jwt.encode claims) now =
    if (claims.exp : Time) ≤ now then .error .expiredSignature else .ok claims.payload
  printable : ∀ claims, (jwt.encode claims).toList ≠ [] ∧
    ∀ c ∈ (jwt.encode claims).toList, isSpace c = false

/-- Whoever presents the header knows no token but those that were issued. -/
def Unforged (jwt : Jwt) (tokens : List Claims) (header : String) : Prop :=
  ∀ token now payload, bearerToken header = some token → jwt.decode token now = .ok payload →
    ∃ claims ∈ tokens, token = jwt.encode claims

section Round

variable {jwt : Jwt}

theorem mapM_textOf (groups : List String) : (groups.map Json.text).mapM textOf = some groups := by
  induction groups with
  | nil => rfl
  | cons g groups ih =>
      rw [List.map_cons, List.mapM_cons, ih]
      rfl

/-- **WHAT A TOKEN SAYS IS WHAT WAS ISSUED**, until it expires. -/
theorem verifyToken_encode (hjwt : Lawful jwt) (claims : Claims) (now : Time) :
    verifyToken jwt (jwt.encode claims) now =
      if (claims.exp : Time) ≤ now then .error "token vencido" else .ok claims.principal := by
  have hne : jwt.encode claims ≠ "" := by
    intro h
    exact (hjwt.printable claims).1 (by rw [h]; rfl)
  rw [verifyToken, if_neg hne, hjwt.decode_encode]
  by_cases hexp : (claims.exp : Time) ≤ now
  · rw [if_pos hexp, if_pos hexp]
  · rw [if_neg hexp, if_neg hexp]
    simp only [Claims.payload, groupsOf, adminOf, mapM_textOf]
    rfl

/-- A text without blanks is as long without the blanks at its ends. -/
theorem strip_eq_self {l : List Char} (h : ∀ c ∈ l, isSpace c = false) : strip l = l := by
  have hdrop : ∀ l : List Char, (∀ c ∈ l, isSpace c = false) → l.dropWhile isSpace = l := by
    intro l hl
    cases l with
    | nil => rfl
    | cons c cs => rw [List.dropWhile_cons_of_neg (by rw [hl c List.mem_cons_self]; decide)]
  rw [strip, trim, hdrop l h, List.rdropWhile, hdrop l.reverse, List.reverse_reverse]
  exact fun c hc => h c (List.mem_reverse.mp hc)

/-- The header that the client writes carries its token. -/
theorem bearerToken_bearerHeader {token : String} (hne : token.toList ≠ [])
    (h : ∀ c ∈ token.toList, isSpace c = false) :
    bearerToken (bearerHeader token) = some token := by
  have hlist : (bearerHeader token).toList = ['B', 'e', 'a', 'r', 'e', 'r', ' '] ++ token.toList :=
    String.toList_append
  have hdrop : ((bearerHeader token).toList.dropWhile (· ≠ ' ')).drop 1 = token.toList := by
    rw [hlist]
    rfl
  have htake : (bearerHeader token).toList.takeWhile (· ≠ ' ')
      = ['B', 'e', 'a', 'r', 'e', 'r'] := by
    rw [hlist]
    rfl
  rw [bearerToken]
  simp only [hdrop, htake, strip_eq_self h]
  rw [if_neg, String.ofList_toList]
  rintro (hscheme | hempty)
  · exact hscheme (by decide)
  · exact hne hempty

/-- Who presents a token that was issued forges nothing. -/
theorem unforged_bearerHeader (hjwt : Lawful jwt) {tokens : List Claims} {claims : Claims}
    (h : claims ∈ tokens) : Unforged jwt tokens (bearerHeader (jwt.encode claims)) := by
  intro token now payload htoken _
  obtain ⟨hne, hspace⟩ := hjwt.printable claims
  rw [bearerToken_bearerHeader hne hspace] at htoken
  exact ⟨claims, h, (Option.some.inj htoken).symm⟩

/-- A header is accepted only for claims that were issued and have not
    expired, and it speaks for them. -/
theorem issued_of_accepted (hjwt : Lawful jwt) {tokens : List Claims} {header : String}
    {now : Time} {p : Principal} (hunforged : Unforged jwt tokens header)
    (h : authenticateHeader jwt header now = .ok p) :
    ∃ claims ∈ tokens, p = claims.principal ∧ now < (claims.exp : Time) := by
  rw [authenticateHeader] at h
  cases htoken : bearerToken header with
  | none =>
      rw [htoken] at h
      cases h
  | some token =>
      rw [htoken] at h
      have hdecode : ∃ payload, jwt.decode token now = .ok payload := by
        simp only [verifyToken] at h
        by_cases hempty : token = ""
        · rw [if_pos hempty] at h
          cases h
        · rw [if_neg hempty] at h
          cases hdec : jwt.decode token now with
          | ok payload => exact ⟨payload, rfl⟩
          | error e =>
              rw [hdec] at h
              cases e <;> cases h
      obtain ⟨payload, hdecode⟩ := hdecode
      obtain ⟨claims, hclaims, rfl⟩ := hunforged token now payload htoken hdecode
      dsimp only at h
      rw [verifyToken_encode hjwt] at h
      by_cases hexp : (claims.exp : Time) ≤ now
      · rw [if_pos hexp] at h
        cases h
      · rw [if_neg hexp] at h
        exact ⟨claims, hclaims, (Except.ok.inj h).symm, not_le.mp hexp⟩

/-- **A SESSION LASTS AS LONG AS ITS TOKEN**: the header that a client sends
    after a login is accepted for who logged in, and refused from its expiry. -/
theorem authenticate_issued (hjwt : Lawful jwt) (p : Principal) (ttlS t now : Time) :
    authenticateHeader jwt (bearerHeader (issueToken jwt p ttlS t)) now =
      if ((⌈t + ttlS⌉ : Int) : Time) ≤ now then .error "token vencido" else .ok p := by
  obtain ⟨hne, hspace⟩ := hjwt.printable (issued p ttlS t)
  rw [authenticateHeader, issueToken, bearerToken_bearerHeader hne hspace]
  exact verifyToken_encode hjwt (issued p ttlS t) now

end Round

/-! ## A library that keeps to it -/

/-- A text for claims: a number that encodes them. -/
def claimsCode (claims : Claims) : List Nat × List (List Nat) × Bool × Int :=
  (claims.sub.toList.map Char.toNat, claims.groups.map fun g => g.toList.map Char.toNat,
    claims.admin, claims.exp)

def claimsOfCode (code : List Nat × List (List Nat) × Bool × Int) : Claims where
  sub := String.ofList (code.1.map Char.ofNat)
  groups := code.2.1.map fun g => String.ofList (g.map Char.ofNat)
  admin := code.2.2.1
  exp := code.2.2.2

/-- The claims in decimal digits, unsigned: a stand-in for PyJWT where nobody
    forges. -/
def plainJwt : Jwt where
  encode := fun claims => String.ofList (Nat.toDigits 10 (Encodable.encode (claimsCode claims)))
  decode := fun token now =>
    match Encodable.decode (α := List Nat × List (List Nat) × Bool × Int)
        (Nat.ofDigitChars 10 token.toList 0) with
    | none => .error .invalidToken
    | some code =>
        let claims := claimsOfCode code
        if (claims.exp : Time) ≤ now then .error .expiredSignature else .ok claims.payload

theorem ofList_map_ofNat (s : String) :
    String.ofList ((s.toList.map Char.toNat).map Char.ofNat) = s := by
  rw [List.map_map, show Char.ofNat ∘ Char.toNat = id from funext Char.ofNat_toNat, List.map_id,
    String.ofList_toList]

theorem claimsOfCode_claimsCode (claims : Claims) : claimsOfCode (claimsCode claims) = claims := by
  have hgroups : (claimsOfCode (claimsCode claims)).groups = claims.groups := by
    show (claims.groups.map _).map _ = claims.groups
    rw [List.map_map]
    exact (List.map_congr_left fun g _ => ofList_map_ofNat g).trans (List.map_id _)
  have hsub : (claimsOfCode (claimsCode claims)).sub = claims.sub := ofList_map_ofNat claims.sub
  cases claims
  simp only [claimsOfCode, claimsCode] at hgroups hsub ⊢
  rw [hgroups, hsub]

theorem digit_bounds {c : Char} (h : c.isDigit = true) : 48 ≤ c.toNat ∧ c.toNat ≤ 57 := by
  rw [Char.isDigit, Bool.and_eq_true, decide_eq_true_eq, decide_eq_true_eq] at h
  exact h

theorem lawful_plainJwt : Lawful plainJwt where
  decode_encode := by
    intro claims now
    simp only [plainJwt, String.toList_ofList,
      Nat.ofDigitChars_toDigits (show 1 < 10 by decide) (show 10 ≤ 10 by decide), Encodable.encodek,
      claimsOfCode_claimsCode]
  printable := by
    intro claims
    simp only [plainJwt, String.toList_ofList]
    refine ⟨Nat.toDigits_ne_nil, fun c hc => ?_⟩
    obtain ⟨hlow, hhigh⟩ := digit_bounds (DfshaBlockToken.isDigit_of_mem hc)
    rw [isSpace, decide_eq_false_iff_not]
    omega

end DfshaSessionToken
