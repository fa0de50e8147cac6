import Dfsha.BlockTokenProofs

/-! # Public addresses

    The leader gives clients outside the cluster another address for each
    DataNode, from a mapping that is written as text.  What is read from the
    text is what is written in it, whatever white space and empty items are
    between (`parsePublicAddresses_eq_ok_iff`), and the check accepts the
    mappings that cover exactly the configured DataNodes and repeat no address.

    What it compares is the text of the addresses.  A port is checked as a
    number, and a number can be written with zeros before it, so two addresses
    that differ in these zeros alone are one endpoint and are accepted as two:
    this is the only way in which two DataNodes come to share one
    (`endpoint_eq_iff`). -/

namespace DfshaPublicAddresses

open InsertionDict Delimited DfshaPath DfshaBlockToken

/-! ## The code -/

/-- `str.isspace` of one character. -/
def isSpace (c : Char) : Bool :=
  let n := c.toNat
  decide ((9 ≤ n ∧ n ≤ 13) ∨ (28 ≤ n ∧ n ≤ 32) ∨ n = 133 ∨ n = 160 ∨ n = 5760 ∨
    (8192 ≤ n ∧ n ≤ 8202) ∨ n = 8232 ∨ n = 8233 ∨ n = 8239 ∨ n = 8287 ∨ n = 12288)

/-- `str.strip`. -/
abbrev strip (cs : List Char) : List Char := trim isSpace cs

def messagePrefix : String := "mapeo de direcciones públicas"

def invalidMapping (detail : String) : PyError :=
  ⟨.valueError, messagePrefix ++ " inválido: " ++ detail⟩

/-- `_is_host_port`, which raises when the interpreter does not convert the port. -/
def isHostPort (address : String) : Except PyError Bool :=
  match splitLast ':' address.toList with
  | none => .ok false
  | some (host, port) =>
      if host = [] then .ok false
      else if address.toList.any (fun c => isSpace c || c = '=' || c = ',') then .ok false
      else if ¬ (isAscii port && !port.isEmpty && port.all Char.isDigit) then .ok false
      else (pyInt (String.ofList port)).map fun n => decide (1 ≤ n ∧ n ≤ 65535)

/-- `pair.partition("=")`, its parts stripped and checked. -/
def parsePair (pair : List Char) : Except PyError (String × String) :=
  let before := strip (pair.takeWhile (· ≠ '='))
  let after := strip ((pair.dropWhile (· ≠ '=')).drop 1)
  if '=' ∉ pair ∨ before = [] ∨ after = [] then
    .error (invalidMapping
      (pyRepr (String.ofList pair) ++ " no tiene la forma interna=pública"))
  else .ok (String.ofList before, String.ofList after)

/-- The loop of `parse_public_addresses`. -/
def parseItems : List (List Char) → Dict String String → Except PyError (Dict String String)
  | [], mapping => .ok mapping
  | item :: items, mapping =>
      if strip item = [] then parseItems items mapping
      else do
        let (internal, publicAddress) ← parsePair (strip item)
        if mapping.contains internal then
          .error (invalidMapping s!"la dirección interna {internal} aparece dos veces")
        else parseItems items (mapping.insert internal publicAddress)

def parsePublicAddresses (value : String) : Except PyError (Dict String String) :=
  parseItems (value.toList.splitOn ',') .empty

def checkHostPorts : List String → Except PyError Unit
  | [] => .ok ()
  | address :: rest => do
      if ← isHostPort address then checkHostPorts rest
      else .error (invalidMapping (pyRepr address ++ " no es host:puerto"))

/-- `", ".join(sorted(set(..)))`. -/
def sortedNames (names : List String) : String :=
  ", ".intercalate (names.dedup.mergeSort fun a b => decide (a ≤ b))

/-- The loop over the public addresses, with the owner of each so far. -/
def checkOwners : List (String × String) → Dict String String → Except PyError Unit
  | [], _ => .ok ()
  | (internal, publicAddress) :: rest, owner =>
      match owner.get? publicAddress with
      | some first => .error (invalidMapping
          (s!"{first} y {internal} apuntan a la misma " ++ "dirección pública " ++ publicAddress))
      | none => checkOwners rest (owner.insert publicAddress internal)

def validatePublicAddresses (mapping : Dict String String) (internalAddresses : List String) :
    Except PyError Unit :=
  if mapping.isEmpty then .ok ()
  else do
    let keys := mapping.entries.map Prod.fst
    checkHostPorts (keys ++ mapping.entries.map Prod.snd)
    let unknown := keys.filter (· ∉ internalAddresses)
    let missing := internalAddresses.filter (· ∉ keys)
    if unknown ≠ [] then
      .error (invalidMapping
        ("no hay ningún DataNode configurado como " ++ sortedNames unknown))
    else if missing ≠ [] then
      .error ⟨.valueError, messagePrefix ++ " incompleto: falta la dirección pública de " ++
        sortedNames missing⟩
    else checkOwners mapping.entries .empty

def internalView : String := "internal"

/-- `_for_client`; `view` is what the call carries under `dfsha-address-view`. -/
def forClient (publicAddresses : Dict String String) (view : Option String)
    (addresses : List String) (pipeline : Bool) : List String :=
  if publicAddresses.isEmpty then addresses
  else if view = some internalView then addresses
  else
    let translated := addresses.map fun a => (publicAddresses.get? a).getD a
    if pipeline then translated.take 1 ++ addresses.drop 1 else translated

/-! ## What the text says -/

/-- The item of one pair: both addresses, and any white space around them. -/
def PairItem (item : List Char) (internal publicAddress : String) : Prop :=
  ∃ a b c d, Blank isSpace a ∧ Blank isSpace b ∧ Blank isSpace c ∧ Blank isSpace d ∧
    item = a ++ internal.toList ++ b ++ '=' :: (c ++ publicAddress.toList ++ d) ∧
    internal.toList ≠ [] ∧ Bare isSpace internal.toList ∧ '=' ∉ internal.toList ∧
    publicAddress.toList ≠ [] ∧ Bare isSpace publicAddress.toList

/-- The items of a list of pairs, with empty items between them. -/
inductive Items : List (List Char) → List (String × String) → Prop
  | nil : Items [] []
  | empty {item : List Char} {items : List (List Char)} {pairs : List (String × String)}
      (hitem : Blank isSpace item) (hitems : Items items pairs) : Items (item :: items) pairs
  | pair {item : List Char} {items : List (List Char)} {internal publicAddress : String}
      {pairs : List (String × String)} (hitem : PairItem item internal publicAddress)
      (hitems : Items items pairs) : Items (item :: items) ((internal, publicAddress) :: pairs)

/-- The text says these pairs, in this order. -/
def Written (value : String) (pairs : List (String × String)) : Prop :=
  ∃ items, items ≠ [] ∧ (∀ item ∈ items, ',' ∉ item) ∧
    value.toList = [','].intercalate items ∧ Items items pairs

/-- The host and the number of the port. -/
def endpoint (address : String) : List Char × Nat :=
  match splitLast ':' address.toList with
  | some (host, port) => (host, Nat.ofDigitChars 10 port 0)
  | none => (address.toList, 0)

/-! ## Reading the text -/

theorem not_isSpace_equals : isSpace '=' = false := by decide

/-- White space has no equals sign. -/
theorem equals_not_mem {pad : List Char} (hpad : Blank isSpace pad) : '=' ∉ pad := by
  intro hmem
  have h := hpad _ hmem
  rw [not_isSpace_equals] at h
  cases h

/-- What is before the first equals sign, and after it. -/
theorem partition_equals {before after : List Char} (h : '=' ∉ before) :
    (before ++ '=' :: after).takeWhile (· ≠ '=') = before ∧
      ((before ++ '=' :: after).dropWhile (· ≠ '=')).drop 1 = after := by
  have hall : ∀ c ∈ before, decide (c ≠ '=') = true := fun c hc =>
    decide_eq_true fun heq => h (heq ▸ hc)
  constructor
  · rw [List.takeWhile_append_of_pos hall, List.takeWhile_cons_of_neg (by simp), List.append_nil]
  · rw [List.dropWhile_append_of_pos hall, List.dropWhile_cons_of_neg (by simp)]
    rfl

theorem exists_partition {cs : List Char} (h : '=' ∈ cs) :
    ∃ before after, '=' ∉ before ∧ cs = before ++ '=' :: after := by
  obtain ⟨before, after, hcs, hno⟩ := List.eq_append_cons_of_mem h
  exact ⟨before, after, hno, hcs⟩

/-- A pair between two addresses has no white space at its ends. -/
theorem bare_pair {internal middle publicAddress : List Char} (hinternal : internal ≠ [])
    (hbare : Bare isSpace internal) (hpublic : publicAddress ≠ [])
    (hbare' : Bare isSpace publicAddress) :
    Bare isSpace (internal ++ middle ++ publicAddress) := by
  refine ⟨?_, ?_⟩
  · rw [List.append_assoc]
    exact dropWhile_append_bare hbare.1 hinternal
  · have hne : publicAddress.reverse ≠ [] := fun h => hpublic (List.reverse_eq_nil_iff.mp h)
    have hrev : publicAddress.reverse.dropWhile isSpace = publicAddress.reverse := by
      rw [← hbare'.2, List.rdropWhile, List.reverse_reverse]
      exact List.dropWhile_idempotent _ _
    rw [List.rdropWhile, List.reverse_append, dropWhile_append_bare hrev hne,
      ← List.reverse_append, List.reverse_reverse]

/-- **AN ITEM IS READ AS THE PAIR THAT IS IN IT.** -/
theorem pairItem_iff {item : List Char} {internal publicAddress : String} :
    PairItem item internal publicAddress ↔
      strip item ≠ [] ∧ parsePair (strip item) = .ok (internal, publicAddress) := by
  constructor
  · rintro ⟨a, b, c, d, ha, hb, hc, hd, rfl, hinternal, hbare, hequals, hpublic, hbare'⟩
    have hstrip : strip (a ++ internal.toList ++ b ++ '=' :: (c ++ publicAddress.toList ++ d))
        = internal.toList ++ (b ++ '=' :: c) ++ publicAddress.toList := by
      have hpad := trim_pad ha hd
        (@bare_pair internal.toList (b ++ '=' :: c) publicAddress.toList hinternal hbare hpublic
          hbare')
      rw [← hpad]
      simp only [List.append_assoc, List.cons_append]
    rw [hstrip]
    have hpair : internal.toList ++ (b ++ '=' :: c) ++ publicAddress.toList
        = (internal.toList ++ b) ++ '=' :: (c ++ publicAddress.toList) := by
      simp only [List.append_assoc, List.cons_append]
    have hno : '=' ∉ internal.toList ++ b := by
      rw [List.mem_append, not_or]
      exact ⟨hequals, equals_not_mem hb⟩
    obtain ⟨hbefore, hafter⟩ := @partition_equals _ (c ++ publicAddress.toList) hno
    have hleft : strip (internal.toList ++ b) = internal.toList := by
      exact trim_pad (List.forall_mem_nil _) hb hbare
    have hright : strip (c ++ publicAddress.toList) = publicAddress.toList := by
      have hpad := trim_pad hc (List.forall_mem_nil _) hbare'
      rwa [List.append_nil] at hpad
    rw [hpair]
    refine ⟨by simp, ?_⟩
    rw [parsePair, hbefore, hafter, hleft, hright, if_neg ?_, String.ofList_toList,
      String.ofList_toList]
    rintro (hmissing | hnil | hnil)
    · exact hmissing (by simp)
    · exact hinternal hnil
    · exact hpublic hnil
  · rintro ⟨_, hparse⟩
    rw [parsePair] at hparse
    by_cases hbad : '=' ∉ strip item ∨ strip ((strip item).takeWhile (· ≠ '=')) = [] ∨
        strip (((strip item).dropWhile (· ≠ '=')).drop 1) = []
    · rw [if_pos hbad] at hparse
      cases hparse
    rw [if_neg hbad] at hparse
    simp only [not_or, not_not] at hbad
    obtain ⟨hequals, hinternal, hpublic⟩ := hbad
    obtain ⟨rfl, rfl⟩ := Prod.mk.inj (Except.ok.inj hparse)
    obtain ⟨before, after, hno, hpair⟩ := exists_partition hequals
    obtain ⟨hbefore, hafter⟩ := @partition_equals _ after hno
    rw [hpair, hbefore] at hinternal
    rw [hpair, hafter] at hpublic
    rw [hpair, hbefore, hafter]
    -- the white space of the item and of its two parts
    obtain ⟨a, d, ha, hd, hitem⟩ := exists_pad isSpace item
    obtain ⟨a', b, ha', hb, hbefore'⟩ := exists_pad isSpace before
    obtain ⟨c, d', hc, hd', hafter'⟩ := exists_pad isSpace after
    refine ⟨a ++ a', b, c, d' ++ d, ha.append ha', hb, hc, hd'.append hd, ?_, ?_⟩
    · rw [String.toList_ofList, String.toList_ofList]
      calc item = a ++ (before ++ '=' :: after) ++ d := by rw [← hpair]; exact hitem
        _ = a ++ ((a' ++ strip before ++ b) ++ '=' :: (c ++ strip after ++ d')) ++ d := by
          rw [← hbefore', ← hafter']
        _ = _ := by simp only [List.append_assoc, List.cons_append]
    · rw [String.toList_ofList, String.toList_ofList]
      refine ⟨hinternal, bare_trim before, fun hmem => hno ?_, hpublic, bare_trim after⟩
      rw [hbefore']
      exact List.mem_append_left _ (List.mem_append_right _ hmem)

/-! ## The loop over the items -/

theorem strip_eq_nil_iff {item : List Char} : strip item = [] ↔ Blank isSpace item := by
  refine ⟨fun h => ?_, trim_blank⟩
  obtain ⟨a, d, ha, hd, hitem⟩ := exists_pad isSpace item
  have hstrip : trim isSpace item = [] := h
  rw [hstrip, List.append_nil] at hitem
  rw [hitem]
  exact ha.append hd

/-- **THE LOOP COLLECTS THE PAIRS OF THE ITEMS.** -/
theorem parseItems_eq_ok_iff {items : List (List Char)} {mapping result : Dict String String} :
    parseItems items mapping = .ok result ↔
      ∃ pairs, Items items pairs ∧ result.entries = mapping.entries ++ pairs := by
  induction items generalizing mapping with
  | nil =>
      rw [parseItems]
      constructor
      · intro h
        rw [← Except.ok.inj h]
        exact ⟨[], .nil, (List.append_nil _).symm⟩
      · rintro ⟨pairs, hitems, hentries⟩
        cases hitems
        rw [List.append_nil] at hentries
        rw [Dict.ext hentries]
  | cons item items ih =>
      rw [parseItems]
      by_cases hblank : strip item = []
      · rw [if_pos hblank, ih]
        constructor
        · rintro ⟨pairs, hitems, hentries⟩
          exact ⟨pairs, .empty (strip_eq_nil_iff.mp hblank) hitems, hentries⟩
        · rintro ⟨pairs, hitems, hentries⟩
          cases hitems with
          | empty _ hitems => exact ⟨pairs, hitems, hentries⟩
          | pair hitem _ => exact absurd hblank (pairItem_iff.mp hitem).1
      · rw [if_neg hblank]
        cases hparse : parsePair (strip item) with
        | error e =>
            refine ⟨fun h => (by cases h), ?_⟩
            rintro ⟨pairs, hitems, _⟩
            cases hitems with
            | empty hitem _ => exact absurd (strip_eq_nil_iff.mpr hitem) hblank
            | pair hitem _ => cases hparse.symm.trans (pairItem_iff.mp hitem).2
        | ok pair =>
            obtain ⟨internal, publicAddress⟩ := pair
            have hpair : PairItem item internal publicAddress := pairItem_iff.mpr ⟨hblank, hparse⟩
            show (if mapping.contains internal = true then _ else
              parseItems items (mapping.insert internal publicAddress)) = _ ↔ _
            by_cases hcontains : mapping.contains internal = true
            · rw [if_pos hcontains]
              refine ⟨fun h => (by cases h), ?_⟩
              rintro ⟨pairs, hitems, hentries⟩
              cases hitems with
              | empty hitem _ => exact absurd (strip_eq_nil_iff.mpr hitem) hblank
              | pair hitem hitems =>
                  obtain ⟨rfl, rfl⟩ := Prod.mk.inj
                    (Except.ok.inj (hparse.symm.trans (pairItem_iff.mp hitem).2))
                  -- the dictionary would have the key twice
                  obtain ⟨v, hv⟩ := Dict.contains_iff.mp hcontains
                  have hnodup := result.nodup
                  rw [hentries, List.map_append, List.map_cons] at hnodup
                  have hkey := List.mem_map_of_mem (f := Prod.fst) (Dict.get?_eq_some_iff.mp hv)
                  exact absurd rfl ((List.nodup_append.mp hnodup).2.2 _ hkey _
                    List.mem_cons_self)
            · rw [if_neg hcontains, ih]
              have hnew : mapping.get? internal = none :=
                Dict.not_contains_iff.mp (Bool.not_eq_true _ ▸ hcontains)
              rw [Dict.entries_insert_new publicAddress hnew]
              constructor
              · rintro ⟨pairs, hitems, hentries⟩
                refine ⟨_, .pair hpair hitems, ?_⟩
                rw [hentries, List.append_assoc, List.singleton_append]
              · rintro ⟨pairs, hitems, hentries⟩
                cases hitems with
                | empty hitem _ => exact absurd (strip_eq_nil_iff.mpr hitem) hblank
                | pair hitem hitems =>
                    obtain ⟨rfl, rfl⟩ := Prod.mk.inj
                      (Except.ok.inj (hparse.symm.trans (pairItem_iff.mp hitem).2))
                    refine ⟨_, hitems, ?_⟩
                    rw [hentries, List.append_assoc, List.singleton_append]

/-- **WHAT IS READ IS WHAT IS WRITTEN.** -/
theorem parsePublicAddresses_eq_ok_iff {value : String} {mapping : Dict String String} :
    parsePublicAddresses value = .ok mapping ↔ Written value mapping.entries := by
  rw [parsePublicAddresses, parseItems_eq_ok_iff]
  constructor
  · rintro ⟨pairs, hitems, hentries⟩
    refine ⟨value.toList.splitOn ',', List.splitOn_ne_nil _ _,
      fun item => not_mem_of_mem_splitOn, ?_, ?_⟩
    · rw [List.intercalate_splitOn]
    · rw [hentries]
      exact hitems
  · rintro ⟨items, hne, hcomma, hvalue, hitems⟩
    rw [hvalue, List.splitOn_intercalate _ hcomma hne]
    exact ⟨_, hitems, rfl⟩

/-! ## Addresses and endpoints -/

def WellFormed (address : String) : Prop := isHostPort address = .ok true

/-- `q` is `p` with zeros before its port. -/
def ZeroPadded (p q : String) : Prop :=
  ∃ host port zeros, p.toList = host ++ ':' :: port ∧
    q.toList = host ++ ':' :: (List.replicate (zeros + 1) '0' ++ port) ∧
    ∀ c ∈ port, c.isDigit = true

/-- A well-formed address is a host and a port of digits, with a number in it. -/
theorem exists_host_port {address : String} (h : WellFormed address) :
    ∃ host port, splitLast ':' address.toList = some (host, port) ∧
      (∀ c ∈ port, c.isDigit = true) ∧ 1 ≤ Nat.ofDigitChars 10 port 0 := by
  rw [WellFormed, isHostPort] at h
  cases hsplit : splitLast ':' address.toList with
  | none =>
      rw [hsplit] at h
      cases h
  | some parts =>
      obtain ⟨host, port⟩ := parts
      rw [hsplit] at h
      dsimp only at h
      by_cases hhost : host = []
      · rw [if_pos hhost] at h
        cases h
      rw [if_neg hhost] at h
      by_cases hspace : address.toList.any (fun c => isSpace c || c = '=' || c = ',') = true
      · rw [if_pos hspace] at h
        cases h
      rw [if_neg hspace] at h
      by_cases hdigits : (isAscii port && !port.isEmpty && port.all Char.isDigit) = true
      · rw [if_neg (not_not_intro hdigits)] at h
        rw [Bool.and_eq_true, List.all_eq_true] at hdigits
        refine ⟨host, port, rfl, hdigits.2, ?_⟩
        rw [pyInt, String.toList_ofList] at h
        by_cases hlong : port.length > maxStrDigits
        · rw [if_pos hlong] at h
          cases h
        · rw [if_neg hlong] at h
          have hrange := of_decide_eq_true (Except.ok.inj h)
          exact_mod_cast hrange.1
      · rw [if_pos hdigits] at h
        cases h

/-- The value of a digit. -/
theorem exists_digit {c : Char} (h : c.isDigit = true) :
    ∃ d < 10, c = Nat.digitChar d := by
  have hchar : ∀ n < 10, (Nat.digitChar n).toNat = n + 48 := by decide
  obtain ⟨hlow, hhigh⟩ := Char.isDigit_iff_toNat.mp h
  have hlow' : 48 ≤ c.toNat := hlow
  have hhigh' : c.toNat ≤ 57 := hhigh
  refine ⟨c.toNat - 48, by omega, ?_⟩
  rw [← Char.toNat_inj, hchar _ (by omega)]
  omega

/-- Digits are zeros and the digits of their number. -/
theorem digits_eq {cs : List Char} (hdigits : ∀ c ∈ cs, c.isDigit = true) :
    (Nat.ofDigitChars 10 cs 0 = 0 → ∃ k, cs = List.replicate k '0') ∧
      (1 ≤ Nat.ofDigitChars 10 cs 0 → ∃ k, cs = List.replicate k '0' ++
        Nat.toDigits 10 (Nat.ofDigitChars 10 cs 0)) := by
  induction cs using List.reverseRecOn with
  | nil =>
      refine ⟨fun _ => ⟨0, rfl⟩, fun h => ?_⟩
      rw [Nat.ofDigitChars_nil] at h
      omega
  | append_singleton cs c ih =>
      obtain ⟨d, hd, rfl⟩ := exists_digit (hdigits c (by simp))
      obtain ⟨hzero, hpos⟩ := ih fun c hc => hdigits c (List.mem_append_left _ hc)
      have hvalue : Nat.ofDigitChars 10 (cs ++ [Nat.digitChar d]) 0
          = 10 * Nat.ofDigitChars 10 cs 0 + d := by
        rw [Nat.ofDigitChars_append, Nat.ofDigitChars_cons_digitChar_of_lt_ten hd,
          Nat.ofDigitChars_nil]
      rw [hvalue]
      constructor
      · intro h
        obtain ⟨k, hk⟩ := hzero (by omega)
        obtain rfl : d = 0 := by omega
        refine ⟨k + 1, ?_⟩
        rw [hk, List.replicate_succ']
        rfl
      · intro h
        by_cases hcs : Nat.ofDigitChars 10 cs 0 = 0
        · obtain ⟨k, hk⟩ := hzero hcs
          refine ⟨k, ?_⟩
          rw [hcs, Nat.mul_zero, Nat.zero_add, Nat.toDigits_of_lt_base hd, ← hk]
        · obtain ⟨k, hk⟩ := hpos (Nat.pos_of_ne_zero hcs)
          refine ⟨k, ?_⟩
          rw [← Nat.toDigits_append_toDigits (by decide) (Nat.pos_of_ne_zero hcs) hd,
            Nat.toDigits_of_lt_base hd, ← List.append_assoc, ← hk]

/-- **ONE ENDPOINT, WRITTEN DIFFERENTLY**: only by zeros before the port. -/
theorem endpoint_eq_iff {p q : String} (hp : WellFormed p) (hq : WellFormed q) :
    endpoint p = endpoint q ↔ p = q ∨ ZeroPadded p q ∨ ZeroPadded q p := by
  obtain ⟨host, port, hsplit, hdigits, hport⟩ := exists_host_port hp
  obtain ⟨host', port', hsplit', hdigits', hport'⟩ := exists_host_port hq
  obtain ⟨hlist, _⟩ := splitLast_eq_some.mp hsplit
  obtain ⟨hlist', _⟩ := splitLast_eq_some.mp hsplit'
  have hpadded : ∀ {p q : String}, ZeroPadded p q → endpoint p = endpoint q := by
    rintro p q ⟨host, port, zeros, hp, hq, hall⟩
    have hcolon : ':' ∉ port := fun hmem => digit_ne_colon (hall _ hmem) rfl
    have hcolon' : ':' ∉ List.replicate (zeros + 1) '0' ++ port := by
      rw [List.mem_append, not_or]
      refine ⟨fun hmem => ?_, hcolon⟩
      exact absurd (List.eq_of_mem_replicate hmem) (by decide)
    rw [endpoint, endpoint, splitLast_eq_some.mpr ⟨hp, hcolon⟩,
      splitLast_eq_some.mpr ⟨hq, hcolon'⟩]
    dsimp only
    rw [Nat.ofDigitChars_append, Nat.ofDigitChars_replicate_zero, Nat.mul_zero]
  constructor
  · intro heq
    rw [endpoint, hsplit, endpoint, hsplit'] at heq
    obtain ⟨rfl, hvalue⟩ := Prod.mk.inj heq
    obtain ⟨k, hk⟩ := (digits_eq hdigits).2 hport
    obtain ⟨k', hk'⟩ := (digits_eq hdigits').2 hport'
    rw [← hvalue] at hk'
    generalize Nat.toDigits 10 _ = digits at hk hk'
    have hpad : ∀ i j : Nat, List.replicate (i + 1 + j) '0' ++ digits
        = List.replicate (i + 1) '0' ++ (List.replicate j '0' ++ digits) := by
      intro i j
      rw [← List.append_assoc, ← List.replicate_add]
    rcases Nat.lt_trichotomy k k' with hlt | rfl | hlt
    · obtain ⟨i, rfl⟩ := Nat.exists_eq_add_of_lt hlt
      refine .inr (.inl ⟨host, port, i, hlist, ?_, hdigits⟩)
      rw [hlist', hk', hk, ← hpad i k]
      congr 4
      omega
    · refine .inl ?_
      rw [← String.toList_inj, hlist, hlist', hk, hk']
    · obtain ⟨i, rfl⟩ := Nat.exists_eq_add_of_lt hlt
      refine .inr (.inr ⟨host, port', i, hlist', ?_, hdigits'⟩)
      rw [hlist, hk, hk', ← hpad i k']
      congr 4
      omega
  · rintro (rfl | h | h)
    · rfl
    · exact hpadded h
    · exact (hpadded h).symm

/-! ## The check -/

/-- Every address is well formed, and the mapping is about the configured
    DataNodes, all of them and no other. -/
structure Covers (mapping : Dict String String) (internalAddresses : List String) : Prop where
  formed : ∀ a p, mapping.get? a = some p → WellFormed a ∧ WellFormed p
  total : ∀ a ∈ internalAddresses, ∃ p, mapping.get? a = some p
  only : ∀ a p, mapping.get? a = some p → a ∈ internalAddresses

/-- No two DataNodes are given one text. -/
def DifferentTexts (mapping : Dict String String) : Prop :=
  ∀ a b p, mapping.get? a = some p → mapping.get? b = some p → a = b

theorem checkHostPorts_eq_ok_iff {addresses : List String} :
    checkHostPorts addresses = .ok () ↔ ∀ a ∈ addresses, WellFormed a := by
  induction addresses with
  | nil => exact ⟨fun _ _ h => absurd h List.not_mem_nil, fun _ => rfl⟩
  | cons a rest ih =>
      rw [List.forall_mem_cons, ← ih, WellFormed]
      show ((isHostPort a) >>= fun ok => if ok = true then checkHostPorts rest else _) = _ ↔ _
      cases hformed : isHostPort a with
      | error e => exact ⟨fun h => (by cases h), fun h => (by cases h.1)⟩
      | ok formed =>
          cases formed with
          | false => exact ⟨fun h => (by cases h), fun h => (by cases h.1)⟩
          | true => exact ⟨fun h => ⟨rfl, h⟩, fun h => h.2⟩

theorem checkOwners_eq_ok_iff {entries : List (String × String)} {owner : Dict String String} :
    checkOwners entries owner = .ok () ↔
      (entries.map Prod.snd).Nodup ∧ ∀ p ∈ entries.map Prod.snd, owner.get? p = none := by
  induction entries generalizing owner with
  | nil => exact ⟨fun _ => ⟨List.nodup_nil, fun _ h => absurd h List.not_mem_nil⟩, fun _ => rfl⟩
  | cons entry rest ih =>
      obtain ⟨internal, publicAddress⟩ := entry
      rw [checkOwners, List.map_cons, List.nodup_cons, List.forall_mem_cons]
      cases howner : owner.get? publicAddress with
      | some first => exact ⟨fun h => (by cases h), fun h => (by cases h.2.1)⟩
      | none =>
          dsimp only
          rw [ih]
          constructor
          · rintro ⟨hnodup, hfree⟩
            have hnot : publicAddress ∉ rest.map Prod.snd := by
              intro hmem
              have hnone := hfree _ hmem
              rw [Dict.get?_insert_self] at hnone
              cases hnone
            refine ⟨⟨hnot, hnodup⟩, rfl, fun p hp => ?_⟩
            have hnone := hfree p hp
            have hne : p ≠ publicAddress := fun heq => hnot (heq ▸ hp)
            rwa [Dict.get?_insert_ne _ _ hne] at hnone
          · rintro ⟨⟨hnot, hnodup⟩, _, hfree⟩
            refine ⟨hnodup, fun p hp => ?_⟩
            have hne : p ≠ publicAddress := fun heq => hnot (heq ▸ hp)
            rw [Dict.get?_insert_ne _ _ hne]
            exact hfree p hp

/-- The values of a dictionary are different when no two keys share one. -/
theorem nodup_values_iff {mapping : Dict String String} :
    (mapping.entries.map Prod.snd).Nodup ↔ DifferentTexts mapping := by
  have hentries : mapping.entries.Nodup := List.Nodup.of_map _ mapping.nodup
  rw [List.nodup_map_iff_inj_on hentries]
  constructor
  · intro h a b p ha hb
    have heq := h _ (Dict.get?_eq_some_iff.mp ha) _ (Dict.get?_eq_some_iff.mp hb) rfl
    exact congrArg Prod.fst heq
  · rintro h ⟨a, p⟩ ha ⟨b, q⟩ hb hpq
    have hpq' : p = q := hpq
    subst hpq'
    rw [h a b p (Dict.get?_eq_some_iff.mpr ha) (Dict.get?_eq_some_iff.mpr hb)]

theorem mem_keys_iff {mapping : Dict String String} {a : String} :
    a ∈ mapping.entries.map Prod.fst ↔ ∃ p, mapping.get? a = some p := by
  constructor
  · intro ha
    obtain ⟨e, he, rfl⟩ := List.mem_map.mp ha
    exact ⟨e.2, Dict.get?_eq_some_iff.mpr he⟩
  · rintro ⟨p, hp⟩
    exact List.mem_map_of_mem (f := Prod.fst) (Dict.get?_eq_some_iff.mp hp)

theorem all_wellFormed_iff {mapping : Dict String String} :
    (∀ a ∈ mapping.entries.map Prod.fst ++ mapping.entries.map Prod.snd, WellFormed a) ↔
      ∀ a p, mapping.get? a = some p → WellFormed a ∧ WellFormed p := by
  constructor
  · intro h a p hp
    have he := Dict.get?_eq_some_iff.mp hp
    exact ⟨h a (List.mem_append_left _ (List.mem_map_of_mem (f := Prod.fst) he)),
      h p (List.mem_append_right _ (List.mem_map_of_mem (f := Prod.snd) he))⟩
  · intro h a ha
    rcases List.mem_append.mp ha with ha | ha
    · obtain ⟨e, he, rfl⟩ := List.mem_map.mp ha
      exact (h _ _ (Dict.get?_eq_some_iff.mpr he)).1
    · obtain ⟨e, he, rfl⟩ := List.mem_map.mp ha
      exact (h _ _ (Dict.get?_eq_some_iff.mpr he)).2

/-- Nothing of one list is missing in another. -/
theorem filter_notMem_eq_nil {names others : List String} :
    names.filter (· ∉ others) = [] ↔ ∀ a ∈ names, a ∈ others := by
  rw [List.filter_eq_nil_iff]
  refine forall₂_congr fun a _ => ?_
  rw [decide_eq_true_eq, not_not]

/-- **THE CHECK** compares texts. -/
theorem validatePublicAddresses_eq_ok_iff {mapping : Dict String String}
    {internalAddresses : List String} (hsome : mapping.isEmpty = false) :
    validatePublicAddresses mapping internalAddresses = .ok () ↔
      Covers mapping internalAddresses ∧ DifferentTexts mapping := by
  rw [validatePublicAddresses, if_neg (by rw [hsome]; exact Bool.false_ne_true)]
  dsimp only
  cases hports : checkHostPorts (mapping.entries.map Prod.fst ++ mapping.entries.map Prod.snd) with
  | error e =>
      refine ⟨fun h => (by cases h), fun h => ?_⟩
      cases hports.symm.trans (checkHostPorts_eq_ok_iff.mpr (all_wellFormed_iff.mpr h.1.formed))
  | ok u =>
      have hall := all_wellFormed_iff.mp (checkHostPorts_eq_ok_iff.mp hports)
      show (if (mapping.entries.map Prod.fst).filter (· ∉ internalAddresses) ≠ [] then _
        else if internalAddresses.filter (· ∉ mapping.entries.map Prod.fst) ≠ [] then _
        else _) = _ ↔ _
      by_cases hunknown : (mapping.entries.map Prod.fst).filter (· ∉ internalAddresses) = []
      case neg =>
        rw [if_pos hunknown]
        refine ⟨fun h => (by cases h), fun h => absurd ?_ hunknown⟩
        refine filter_notMem_eq_nil.mpr fun a ha => ?_
        obtain ⟨p, hp⟩ := mem_keys_iff.mp ha
        exact h.1.only a p hp
      rw [if_neg (not_not_intro hunknown)]
      by_cases hmissing : internalAddresses.filter (· ∉ mapping.entries.map Prod.fst) = []
      case neg =>
        rw [if_pos hmissing]
        refine ⟨fun h => (by cases h), fun h => absurd ?_ hmissing⟩
        exact filter_notMem_eq_nil.mpr fun a ha => mem_keys_iff.mpr (h.1.total a ha)
      rw [if_neg (not_not_intro hmissing), checkOwners_eq_ok_iff, nodup_values_iff]
      rw [filter_notMem_eq_nil] at hunknown hmissing
      constructor
      · rintro ⟨hdifferent, _⟩
        refine ⟨⟨hall, fun a ha => ?_, fun a p hp => ?_⟩, hdifferent⟩
        · exact mem_keys_iff.mp (hmissing a ha)
        · exact hunknown a (mem_keys_iff.mpr ⟨p, hp⟩)
      · intro h
        exact ⟨h.2, fun _ _ => rfl⟩

/-! ## What a client is given -/

/-- Each configured DataNode, and no other, has an endpoint of its own. -/
structure OneToOne (mapping : Dict String String) (internalAddresses : List String) :
    Prop where
  total : ∀ a ∈ internalAddresses, ∃ p, mapping.get? a = some p
  only : ∀ a p, mapping.get? a = some p → a ∈ internalAddresses
  distinct : ∀ a b p q, mapping.get? a = some p → mapping.get? b = some q →
    endpoint p = endpoint q → a = b

/-- A client outside is given different endpoints for the replicas that it reads,
    and for a write the endpoint of the head and the rest as it is. -/
structure ServesClients (mapping : Dict String String) (internalAddresses : List String) :
    Prop where
  reads : ∀ view addresses, view ≠ some internalView → addresses.Nodup →
    (∀ a ∈ addresses, a ∈ internalAddresses) →
    ((forClient mapping view addresses false).map endpoint).Nodup
  writes : ∀ view head rest, view ≠ some internalView → head ∈ internalAddresses →
    ∃ p, mapping.get? head = some p ∧ forClient mapping view (head :: rest) true = p :: rest

/-- A mapping that is accepted is one to one, and serves the clients so. -/
def AcceptsOneToOne (value : String) (internalAddresses : List String) : Prop :=
  ∀ mapping, parsePublicAddresses value = .ok mapping → mapping.isEmpty = false →
    validatePublicAddresses mapping internalAddresses = .ok () →
    OneToOne mapping internalAddresses ∧ ServesClients mapping internalAddresses

/-- A mapping that is one to one and well formed is accepted as it is written. -/
def AcceptsAll (value : String) (internalAddresses : List String) : Prop :=
  ∀ mapping, OneToOne mapping internalAddresses →
    (∀ a p, mapping.get? a = some p → WellFormed a ∧ WellFormed p) →
    Written value mapping.entries →
    parsePublicAddresses value = .ok mapping ∧
      validatePublicAddresses mapping internalAddresses = .ok ()

/-- The text gives two DataNodes one endpoint, written with more or fewer zeros
    before the port, and there is nothing else to refuse in it. -/
def HidesOneEndpoint (value : String) (internalAddresses : List String) : Prop :=
  ∃ mapping, Written value mapping.entries ∧ Covers mapping internalAddresses ∧
    DifferentTexts mapping ∧
    ∃ a b p q, mapping.get? a = some p ∧ mapping.get? b = some q ∧ ZeroPadded p q

theorem forClient_translated {mapping : Dict String String} {view : Option String}
    {addresses : List String} (hsome : mapping.isEmpty = false)
    (hview : view ≠ some internalView) :
    forClient mapping view addresses false
      = addresses.map fun a => (mapping.get? a).getD a := by
  rw [forClient, if_neg (by rw [hsome]; exact Bool.false_ne_true), if_neg hview]
  rfl

theorem servesClients {mapping : Dict String String} {internalAddresses : List String}
    (hsome : mapping.isEmpty = false) (h : OneToOne mapping internalAddresses) :
    ServesClients mapping internalAddresses := by
  refine ⟨fun view addresses hview hnodup hmem => ?_, fun view head rest hview hhead => ?_⟩
  · rw [forClient_translated hsome hview, List.map_map]
    refine hnodup.map_on fun a ha b hb hab => ?_
    obtain ⟨p, hp⟩ := h.total a (hmem a ha)
    obtain ⟨q, hq⟩ := h.total b (hmem b hb)
    refine h.distinct a b p q hp hq ?_
    rw [Function.comp_apply, Function.comp_apply, hp, hq] at hab
    exact hab
  · obtain ⟨p, hp⟩ := h.total head hhead
    refine ⟨p, hp, ?_⟩
    rw [forClient, if_neg (by rw [hsome]; exact Bool.false_ne_true), if_neg hview]
    show [(mapping.get? head).getD head] ++ rest = _
    rw [hp]
    rfl

/-- Where no two endpoints are hidden, the texts tell the endpoints apart. -/
theorem distinct_of_texts {mapping : Dict String String} {internalAddresses : List String}
    (hcovers : Covers mapping internalAddresses) (htexts : DifferentTexts mapping)
    (hpadded : ∀ a b p q, mapping.get? a = some p → mapping.get? b = some q →
      ¬ ZeroPadded p q) {a b p q : String} (hp : mapping.get? a = some p)
    (hq : mapping.get? b = some q) (h : endpoint p = endpoint q) : a = b := by
  rcases (endpoint_eq_iff (hcovers.formed a p hp).2 (hcovers.formed b q hq).2).mp h with
    rfl | hpq | hqp
  · exact htexts a b p hp hq
  · exact absurd hpq (hpadded a b p q hp hq)
  · exact absurd hqp (hpadded b a q p hq hp)

/-- Padding makes a text longer. -/
theorem ZeroPadded.ne {p q : String} (h : ZeroPadded p q) : p ≠ q := by
  rintro rfl
  obtain ⟨host, port, zeros, hp, hq, _⟩ := h
  have hlen := congrArg List.length (hp.symm.trans hq)
  simp only [List.length_append, List.length_cons, List.length_replicate] at hlen
  omega

/-- **PUBLIC ADDRESSES**: a text and a configuration are treated as they should
    be, both ways, exactly when the text hides no endpoint behind zeros. -/
theorem public_addresses_iff (value : String) (internalAddresses : List String) :
    (AcceptsOneToOne value internalAddresses ∧ AcceptsAll value internalAddresses) ↔
      ¬ HidesOneEndpoint value internalAddresses := by
  constructor
  · rintro ⟨haccepts, _⟩ ⟨mapping, hwritten, hcovers, htexts, a, b, p, q, hp, hq, hpadded⟩
    have hsome : mapping.isEmpty = false := by
      rw [Bool.eq_false_iff]
      intro hempty
      rw [Dict.get?_of_isEmpty hempty] at hp
      cases hp
    obtain ⟨hone, _⟩ := haccepts mapping (parsePublicAddresses_eq_ok_iff.mpr hwritten) hsome
      ((validatePublicAddresses_eq_ok_iff hsome).mpr ⟨hcovers, htexts⟩)
    have hsame := (endpoint_eq_iff (hcovers.formed a p hp).2 (hcovers.formed b q hq).2).mpr
      (.inr (.inl hpadded))
    obtain rfl := hone.distinct a b p q hp hq hsame
    exact hpadded.ne (Option.some.inj (hp.symm.trans hq))
  · intro hnot
    refine ⟨fun mapping hparse hsome hvalid => ?_, fun mapping hone hformed hwritten => ?_⟩
    · have hwritten := parsePublicAddresses_eq_ok_iff.mp hparse
      obtain ⟨hcovers, htexts⟩ := (validatePublicAddresses_eq_ok_iff hsome).mp hvalid
      have hone : OneToOne mapping internalAddresses := by
        refine ⟨hcovers.total, hcovers.only, fun a b p q hp hq h => ?_⟩
        refine distinct_of_texts hcovers htexts (fun a b p q hp hq hpadded => hnot ?_) hp hq h
        exact ⟨mapping, hwritten, hcovers, htexts, a, b, p, q, hp, hq, hpadded⟩
      exact ⟨hone, servesClients hsome hone⟩
    · refine ⟨parsePublicAddresses_eq_ok_iff.mpr hwritten, ?_⟩
      by_cases hsome : mapping.isEmpty = true
      · rw [validatePublicAddresses, if_pos hsome]
      · refine (validatePublicAddresses_eq_ok_iff (Bool.not_eq_true _ ▸ hsome)).mpr
          ⟨⟨hformed, hone.total, hone.only⟩, fun a b p hp hq => ?_⟩
        exact hone.distinct a b p p hp hq rfl

/-- Two DataNodes behind one port, written `80` and `080`. -/
def onePort : Dict String String :=
  ⟨[("d1:1", "h:80"), ("d2:1", "h:080")], by decide⟩

theorem one_endpoint_accepted_twice :
    ¬ (AcceptsOneToOne "d1:1=h:80, d2:1=h:080" ["d1:1", "d2:1"] ∧
      AcceptsAll "d1:1=h:80, d2:1=h:080" ["d1:1", "d2:1"]) := by
  rintro ⟨haccepts, _⟩
  have hentries : (parsePublicAddresses "d1:1=h:80, d2:1=h:080").map Dict.entries
      = .ok onePort.entries := by decide +kernel
  have hvalid : validatePublicAddresses onePort ["d1:1", "d2:1"] = .ok () := by decide +kernel
  cases hparse : parsePublicAddresses "d1:1=h:80, d2:1=h:080" with
  | error e =>
      rw [hparse] at hentries
      cases hentries
  | ok mapping =>
      rw [hparse] at hentries
      obtain rfl : mapping = onePort := Dict.ext (Except.ok.inj hentries)
      obtain ⟨hone, _⟩ := haccepts onePort hparse rfl hvalid
      have hsame := hone.distinct "d1:1" "d2:1" "h:80" "h:080" rfl rfl (by decide +kernel)
      exact absurd hsame (by decide)

end DfshaPublicAddresses
