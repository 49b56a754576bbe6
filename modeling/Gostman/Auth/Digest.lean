import Gostman.Lib.Decided
import Gostman.Auth.Challenges
import Gostman.Lib.Lines
/-!
# Digest authentication (`engine/auth_digest.go`)

Which challenge is picked, the header that answers it, and that this header is
read back as the values it was made of.
-/

namespace Gostman.Auth

open Gostman.Lib

open scoped Gostman.Lib.Decided

inductive HashName
  | md5
  | sha256
  | sha512_256
deriving DecidableEq, Repr

structure Engine where
  unicode : Unicode
  sum : HashName → Bytes → Bytes

def digestHashes : Record Bytes HashName :=
  [(ascii "MD5", .md5), (ascii "SHA-256", .sha256), (ascii "SHA-512-256", .sha512_256)]

def digestScheme : Bytes := ascii "digest"

def digestSessionTag : Bytes := ascii "-SESS"

def digestNonceCount : Bytes := ascii "00000001"

def digestDefaultAlg : Bytes := ascii "MD5"

def digestIntegrity : Bytes := ascii "auth-int"

def digestQopPreference : List Bytes := [ascii "auth", digestIntegrity]

structure DigestChallenge where
  params : Record Bytes Bytes
  algorithm : Bytes
  qop : Bytes

def param (params : Record Bytes Bytes) (name : String) : Bytes :=
  (params.read (ascii name)).getD []

def trimSuffix (text suffix : Bytes) : Bytes :=
  if suffix <:+ text then text.take (text.length - suffix.length) else text

def chooseQop (engine : Engine) (offered : Bytes) : Bytes :=
  let options := (offered.splitOn 44).map fun option => engine.unicode.toLower (engine.unicode.trimSpace option)
  (digestQopPreference.find? (· ∈ options)).getD []

def newDigestChallenge (engine : Engine) (params : Record Bytes Bytes) : DigestChallenge :=
  let algorithm := engine.unicode.toUpper (param params "algorithm")
  let algorithm := if algorithm = [] then digestDefaultAlg else algorithm
  ⟨params, algorithm, chooseQop engine (param params "qop")⟩

namespace DigestChallenge

def hasher (c : DigestChallenge) : Option HashName :=
  digestHashes.read (trimSuffix c.algorithm digestSessionTag)

def strength (c : DigestChallenge) : Nat :=
  match c.hasher with
  | some .md5 => 16
  | _ => 32

end DigestChallenge

def pickDigestChallenge (engine : Engine) (headers : List Bytes) : Option DigestChallenge :=
  ((parseChallenges engine.unicode headers).getD []).foldl
    (fun best challenge =>
      if challenge.scheme ≠ digestScheme then best
      else
        let candidate := newDigestChallenge engine challenge.params
        if candidate.hasher = none then best
        else
          match best with
          | none => some candidate
          | some chosen => if candidate.strength > chosen.strength then some candidate else best) none

/-! ## The answer -/

def hexDigit (n : Nat) : UInt8 :=
  (ascii "0123456789abcdef").getD n 0

def hexOf (bytes : Bytes) : Bytes :=
  bytes.flatMap fun b => [hexDigit (b.toNat / 16), hexDigit (b.toNat % 16)]

/-- What the replacer of `quoteAuth` makes of a byte. -/
def escapeByte (b : UInt8) : Bytes :=
  if b = 92 then [92, 92] else if b = 34 then [92, 34] else [b]

def quoteAuth (value : Bytes) : Bytes :=
  34 :: value.flatMap escapeByte ++ [34]

structure Exchange where
  username : Bytes
  password : Bytes
  method : Bytes
  uri : Bytes
  body : Bytes
  cnonce : Bytes

namespace DigestChallenge

variable (engine : Engine) (c : DigestChallenge) (hash : HashName) (e : Exchange)

def digest (text : Bytes) : Bytes :=
  hexOf (engine.sum hash text)

def ha1 : Bytes :=
  let realm := param c.params "realm"
  let first := digest engine hash (engine.unicode.nfc e.username ++ ascii ":" ++ realm ++ ascii ":" ++ engine.unicode.nfc e.password)
  if digestSessionTag <:+ c.algorithm then
    digest engine hash (first ++ ascii ":" ++ param c.params "nonce" ++ ascii ":" ++ e.cnonce)
  else first

def ha2 : Bytes :=
  let a2 := e.method ++ ascii ":" ++ e.uri
  digest engine hash (if c.qop = digestIntegrity then a2 ++ ascii ":" ++ digest engine hash e.body else a2)

def response : Bytes :=
  let nonce := param c.params "nonce"
  if c.qop ≠ [] then
    digest engine hash (c.ha1 engine hash e ++ ascii ":" ++ nonce ++ ascii ":" ++ digestNonceCount ++ ascii ":" ++ e.cnonce ++
      ascii ":" ++ c.qop ++ ascii ":" ++ c.ha2 engine hash e)
  else digest engine hash (c.ha1 engine hash e ++ ascii ":" ++ nonce ++ ascii ":" ++ c.ha2 engine hash e)

def userhash : Bool :=
  engine.unicode.equalFold (param c.params "userhash") (ascii "true")

def sentUsername : Bytes :=
  let username := engine.unicode.nfc e.username
  if c.userhash engine then digest engine hash (username ++ ascii ":" ++ param c.params "realm") else username

def fields : List Bytes :=
  let given := param c.params "algorithm"
  [ascii "username=" ++ quoteAuth (c.sentUsername engine hash e), ascii "realm=" ++ quoteAuth (param c.params "realm"),
    ascii "nonce=" ++ quoteAuth (param c.params "nonce"), ascii "uri=" ++ quoteAuth e.uri] ++
  (if c.qop ≠ [] then
    [ascii "qop=" ++ c.qop, ascii "nc=" ++ digestNonceCount, ascii "cnonce=" ++ quoteAuth e.cnonce] else []) ++
  [ascii "response=" ++ quoteAuth (c.response engine hash e)] ++
  (if given ≠ [] then [ascii "algorithm=" ++ given] else []) ++
  (match c.params.read (ascii "opaque") with
    | some opaqueValue => [ascii "opaque=" ++ quoteAuth opaqueValue]
    | none => []) ++
  (if c.userhash engine then [ascii "userhash=true"] else [])

def answer : Option Bytes :=
  c.hasher.map fun hash => ascii "Digest " ++ List.intercalate (ascii ", ") (c.fields engine hash e)

end DigestChallenge

/-! ## Reading fields -/

/-- A field of a header: its name and its value, in quotes or bare. -/
structure Field where
  name : Bytes
  value : Bytes
  isQuoted : Bool

def Field.text (field : Field) : Bytes :=
  field.name ++ 61 :: (if field.isQuoted then quoteAuth field.value else field.value)

/-- A name is a token, and a bare value has no byte that ends it or begins a
quoted one. -/
structure Field.Plain (field : Field) : Prop where
  named : field.name ≠ []
  token : ∀ b ∈ field.name, b ∉ ascii " \t,="
  bare : field.isQuoted = false → ∀ b ∈ field.value, b ∉ ascii "\", \t"

def Field.entry (unicode : Unicode) (field : Field) : Bytes × Bytes :=
  (unicode.toLower field.name, if field.isQuoted then field.value else unicode.trimSpace field.value)

theorem unquote_escaped (value after : Bytes) :
    ChallengeScanner.unquote (value.flatMap escapeByte ++ 34 :: after) = (value, after) := by
  induction value with
  | nil => exact ChallengeScanner.unquote_quote after
  | cons b rest ih =>
      rw [List.flatMap_cons, List.append_assoc]
      generalize rest.flatMap escapeByte ++ 34 :: after = left at ih
      unfold escapeByte
      split_ifs with hescape hquote
      · rw [hescape, List.cons_append, List.cons_append, List.nil_append, ChallengeScanner.unquote_escaped, ih]
      · rw [hquote, List.cons_append, List.cons_append, List.nil_append, ChallengeScanner.unquote_escaped, ih]
      · rw [List.cons_append, List.nil_append, ChallengeScanner.unquote_plain hquote hescape, ih]

def Closed (after : Bytes) : Prop :=
  after = [] ∨ after.head? = some 44

theorem takeWhile_closed {accepts : UInt8 → Bool} {text after : Bytes} (htext : ∀ b ∈ text, accepts b = true)
    (hcomma : accepts 44 = false) (hafter : Closed after) :
    (text ++ after).takeWhile accepts = text ∧ (text ++ after).dropWhile accepts = after := by
  have hstop : after.takeWhile accepts = [] ∧ after.dropWhile accepts = after := by
    rcases hafter with rfl | hhead
    · exact ⟨rfl, rfl⟩
    · obtain ⟨tail, rfl⟩ := List.head?_eq_some_iff.1 hhead
      constructor
      · rw [List.takeWhile_cons, if_neg (by simp [hcomma])]
      · rw [List.dropWhile_cons, if_neg (by simp [hcomma])]
  constructor
  · rw [List.takeWhile_append_of_pos htext, hstop.1, List.append_nil]
  · rw [List.dropWhile_append_of_pos htext, hstop.2]

theorem readValue_field (unicode : Unicode) {field : Field} (h : field.Plain) {after : Bytes} (hafter : Closed after) :
    ChallengeScanner.readValue unicode
        (((if field.isQuoted then quoteAuth field.value else field.value) ++ after).dropWhile (· ∈ ascii " \t")) =
      ((field.entry unicode).2, after) := by
  cases hquoted : field.isQuoted with
  | true =>
      have hopen : ((if true = true then quoteAuth field.value else field.value) ++ after).dropWhile (· ∈ ascii " \t") =
          34 :: (field.value.flatMap escapeByte ++ 34 :: after) := by
        rw [if_pos rfl, quoteAuth, List.append_assoc]
        rfl
      rw [hopen, ChallengeScanner.readValue, if_pos List.head?_cons, Field.entry, hquoted]
      exact unquote_escaped field.value after
  | false =>
      have hbare := h.bare hquoted
      have hstart : ∀ b, (field.value ++ after).head? = some b → b ∉ ascii " \t" ∧ b ≠ 34 := by
        intro b hb
        cases hvalue : field.value with
        | nil =>
            rw [hvalue, List.nil_append] at hb
            rcases hafter with rfl | hhead
            · cases hb
            · rw [hhead, Option.some.injEq] at hb
              subst hb
              decide
        | cons c rest =>
            rw [hvalue, List.cons_append, List.head?_cons, Option.some.injEq] at hb
            subst hb
            have hc := hbare c (by rw [hvalue]; exact List.mem_cons_self)
            have hall : ∀ d, d ∉ ascii "\", \t" → d ∉ ascii " \t" ∧ d ≠ 34 := by
              intro d hd
              constructor
              · intro hblank
                have hsub : ∀ x ∈ ascii " \t", x ∈ ascii "\", \t" := by decide
                exact hd (hsub d hblank)
              · rintro rfl
                exact hd (by decide)
            exact hall c hc
      have hstay : (field.value ++ after).dropWhile (· ∈ ascii " \t") = field.value ++ after := by
        cases hwhole : field.value ++ after with
        | nil => rfl
        | cons b rest =>
            rw [List.dropWhile_cons, if_neg]
            rw [decide_eq_true_eq]
            exact (hstart b (by rw [hwhole]; rfl)).1
      have hnot : (field.value ++ after).head? ≠ some 34 := fun hb => (hstart 34 hb).2 rfl
      have hcomma : ∀ b ∈ field.value, (decide (b ≠ 44)) = true := by
        intro b hb
        rw [decide_eq_true_eq]
        rintro rfl
        exact hbare 44 hb (by decide)
      obtain ⟨htake, hdrop⟩ := takeWhile_closed hcomma (by decide) hafter
      rw [if_neg Bool.false_ne_true, hstay, ChallengeScanner.readValue, if_neg hnot, htake, hdrop, Field.entry, hquoted,
        if_neg Bool.false_ne_true]

theorem dropWhile_of_head {accepts : UInt8 → Bool} {text : Bytes} (h : ∀ b, text.head? = some b → accepts b = false) :
    text.dropWhile accepts = text := by
  cases text with
  | nil => rfl
  | cons b rest => rw [List.dropWhile_cons, if_neg (by rw [h b rfl]; exact Bool.false_ne_true)]

theorem takeWhile_token {accepts : UInt8 → Bool} {name after : Bytes} (hname : ∀ b ∈ name, accepts b = true)
    (hafter : ∀ b, after.head? = some b → accepts b = false) :
    (name ++ after).takeWhile accepts = name ∧ (name ++ after).dropWhile accepts = after := by
  have htake : after.takeWhile accepts = [] := by
    cases after with
    | nil => rfl
    | cons b rest => rw [List.takeWhile_cons, if_neg (by rw [hafter b rfl]; exact Bool.false_ne_true)]
  constructor
  · rw [List.takeWhile_append_of_pos hname, htake, List.append_nil]
  · rw [List.dropWhile_append_of_pos hname, dropWhile_of_head hafter]

theorem not_separator {b : UInt8} (h : b ∉ ascii " \t,=") : b ∉ ascii " \t," := by
  intro hmem
  have hall : ∀ x ∈ ascii " \t,", x ∈ ascii " \t,=" := by decide
  exact h (hall b hmem)

theorem parseOn_scheme (unicode : Unicode) {scheme : Bytes} (hne : scheme ≠ []) (htoken : ∀ b ∈ scheme, b ∉ ascii " \t,=")
    {text : Bytes} (htext : ∀ b, text.head? = some b → b ∉ ascii " \t,=") :
    parseOn unicode (scheme ++ 32 :: text) [] = parseOn unicode text [⟨unicode.toLower scheme, []⟩] := by
  have hblanks : ∀ b, b ∉ ascii " \t,=" → b ∉ ascii " \t" ∧ b ≠ 61 := by
    intro b hb
    have hall : ∀ x ∈ ascii " \t", x ∈ ascii " \t,=" := by decide
    refine ⟨fun hmem => hb (hall b hmem), ?_⟩
    rintro rfl
    exact hb (by decide)
  have hstart : (scheme ++ 32 :: text).dropWhile (· ∈ ascii " \t,") = scheme ++ 32 :: text := by
    apply dropWhile_of_head
    intro b hb
    obtain ⟨c, rest, hscheme⟩ := List.exists_cons_of_ne_nil hne
    rw [hscheme, List.cons_append, List.head?_cons, Option.some.injEq] at hb
    subst hb
    have hc := htoken c (by rw [hscheme]; exact List.mem_cons_self)
    exact decide_eq_false (not_separator hc)
  obtain ⟨hname, hleft⟩ := @takeWhile_token (· ∉ ascii " \t,=") scheme (32 :: text)
    (fun b hb => decide_eq_true (htoken b hb)) (fun b hb => by
      rw [List.head?_cons, Option.some.injEq] at hb
      subst hb
      decide)
  have hbehind : (32 :: text).dropWhile (· ∈ ascii " \t") = text := by
    rw [List.dropWhile_cons, if_pos (by decide)]
    exact dropWhile_of_head fun b hb => decide_eq_false (hblanks b (htext b hb)).1
  apply parseOn_of_next
  unfold roundOn
  dsimp only
  rw [hstart, if_neg (by simp), hname, hleft, hbehind, if_neg]
  · rfl
  · exact fun hequals => hequals.2 rfl

theorem parseOn_field (unicode : Unicode) {field : Field} (h : field.Plain) {separators after : Bytes}
    (hseparators : ∀ b ∈ separators, b ∈ ascii " \t,") (hafter : Closed after) {challenges : List AuthChallenge}
    (hne : challenges ≠ []) :
    parseOn unicode (separators ++ field.text ++ after) challenges =
      parseOn unicode after (setLast challenges (field.entry unicode).1 (field.entry unicode).2) := by
  have hstart : (separators ++ field.text ++ after).dropWhile (· ∈ ascii " \t,") = field.text ++ after := by
    rw [List.append_assoc, List.dropWhile_append_of_pos (fun b hb => decide_eq_true (hseparators b hb))]
    apply dropWhile_of_head
    intro b hb
    obtain ⟨c, rest, hname⟩ := List.exists_cons_of_ne_nil h.named
    rw [Field.text, hname, List.cons_append, List.cons_append, List.head?_cons, Option.some.injEq] at hb
    subst hb
    exact decide_eq_false (not_separator (h.token c (by rw [hname]; exact List.mem_cons_self)))
  have hbytes : field.text ++ after =
      field.name ++ (61 :: ((if field.isQuoted then quoteAuth field.value else field.value) ++ after)) := by
    rw [Field.text, List.append_assoc, List.cons_append]
  have hvalue := readValue_field unicode h hafter
  generalize (if field.isQuoted then quoteAuth field.value else field.value) ++ after = behind at hbytes hvalue
  obtain ⟨hname, hleft⟩ := @takeWhile_token (· ∉ ascii " \t,=") field.name (61 :: behind)
    (fun b hb => decide_eq_true (h.token b hb)) (fun b hb => by
      rw [List.head?_cons, Option.some.injEq] at hb
      subst hb
      decide)
  apply parseOn_of_next
  unfold roundOn
  dsimp only
  rw [hstart, hbytes, if_neg (by simp), hname, hleft, @dropWhile_of_head _ (61 :: behind) (fun b hb => by
      rw [List.head?_cons, Option.some.injEq] at hb
      subst hb
      decide), if_pos ⟨rfl, hne⟩, List.drop_succ_cons, List.drop_zero, hvalue]
  rfl

/-- The fields behind the first, each after its separator. -/
def following (fields : List Field) : Bytes :=
  fields.flatMap fun field => ascii ", " ++ field.text

theorem closed_following (fields : List Field) : Closed (following fields) := by
  cases fields with
  | nil => exact .inl rfl
  | cons field rest => exact .inr rfl

theorem intercalate_eq (separator : Bytes) (first : Bytes) (rest : List Bytes) :
    List.intercalate separator (first :: rest) = first ++ rest.flatMap (separator ++ ·) := by
  induction rest generalizing first with
  | nil => simp
  | cons second rest ih => rw [List.intercalate_cons_cons, ih, List.flatMap_cons, List.append_assoc, List.append_assoc]

theorem parseOn_following (unicode : Unicode) (fields : List Field) (h : ∀ field ∈ fields, field.Plain) (scheme : Bytes)
    (params : Record Bytes Bytes) :
    parseOn unicode (following fields) [⟨scheme, params⟩] =
      [⟨scheme, params.overlay (fields.map (Field.entry unicode))⟩] := by
  induction fields generalizing params with
  | nil => exact parseOn_of_stop rfl
  | cons field rest ih =>
      have hfield := h field List.mem_cons_self
      have hbytes : following (field :: rest) = ascii ", " ++ field.text ++ following rest := List.flatMap_cons
      rw [hbytes, parseOn_field unicode hfield (by decide) (closed_following rest) (List.cons_ne_nil _ _)]
      exact ih (fun other hmem => h other (List.mem_cons_of_mem field hmem)) _

/-- A header of plain fields is read as one challenge with these fields. -/
theorem parseChallenges_fields (unicode : Unicode) (fields : List Field) (hne : fields ≠ [])
    (h : ∀ field ∈ fields, field.Plain) :
    parseChallenges unicode [ascii "Digest " ++ List.intercalate (ascii ", ") (fields.map Field.text)] =
      some [⟨ascii "digest", Record.ofEntries (fields.map (Field.entry unicode))⟩] := by
  obtain ⟨first, rest, rfl⟩ := List.exists_cons_of_ne_nil hne
  have hfirst := h first List.mem_cons_self
  have hbytes : ascii "Digest " ++ List.intercalate (ascii ", ") ((first :: rest).map Field.text) =
      ascii "Digest" ++ 32 :: (first.text ++ following rest) := by
    have hscheme : ascii "Digest " = ascii "Digest" ++ [32] := by decide
    rw [List.map_cons, intercalate_eq, hscheme, List.append_assoc, following, List.flatMap_map]
    rfl
  have hhead : ∀ b, (first.text ++ following rest).head? = some b → b ∉ ascii " \t,=" := by
    intro b hb
    obtain ⟨c, more, hname⟩ := List.exists_cons_of_ne_nil hfirst.named
    rw [Field.text, hname, List.cons_append, List.cons_append, List.head?_cons, Option.some.injEq] at hb
    subst hb
    exact hfirst.token c (by rw [hname]; exact List.mem_cons_self)
  have hlower : unicode.toLower (ascii "Digest") = ascii "digest" := by
    rw [Unicode.toLower, if_pos (by decide)]
    decide
  have hfield := @parseOn_field unicode _ hfirst [] _ (List.forall_mem_nil _) (closed_following rest) _
    (List.cons_ne_nil (⟨ascii "digest", []⟩ : AuthChallenge) [])
  rw [parseChallenges_eq, List.foldl_cons, List.foldl_nil, hbytes,
    parseOn_scheme unicode (by decide) (by decide) hhead, hlower]
  rw [List.nil_append] at hfield
  rw [hfield]
  exact congrArg some (parseOn_following unicode rest (fun other hmem => h other (List.mem_cons_of_mem first hmem)) _ _)

/-! ## The fields of the answer -/

theorem chooseQop_cases (engine : Engine) (offered : Bytes) :
    chooseQop engine offered = [] ∨ chooseQop engine offered ∈ digestQopPreference := by
  unfold chooseQop
  dsimp only
  cases hfound : digestQopPreference.find? (· ∈ (offered.splitOn 44).map fun option =>
    engine.unicode.toLower (engine.unicode.trimSpace option)) with
  | none => exact .inl rfl
  | some preferred => exact .inr (List.mem_of_find?_eq_some hfound)

theorem notMem_algorithm {c : DigestChallenge} {hash : HashName} (h : c.hasher = some hash) {b : UInt8}
    (hb : b ∈ ascii "\", \t") : b ∉ c.algorithm := by
  have hnames : ∀ entry ∈ digestHashes, b ∉ entry.1 ++ digestSessionTag := by
    have hall : ∀ x ∈ ascii "\", \t", ∀ entry ∈ digestHashes, x ∉ entry.1 ++ digestSessionTag := by decide
    exact hall b hb
  have hmem := hnames _ (Record.mem_of_read h)
  intro hin
  apply hmem
  dsimp only
  unfold trimSuffix
  split_ifs with hsuffix
  · obtain ⟨lead, hlead⟩ := hsuffix
    have hlength : c.algorithm.length - digestSessionTag.length = lead.length := by
      rw [← hlead, List.length_append]
      omega
    rw [hlength, ← hlead, List.take_left', hlead]
    · exact hin
    · rfl
  · exact List.mem_append_left _ hin

theorem mem_toUpper (unicode : Unicode) {text : Bytes} {b : UInt8} (hb : b ∈ ascii "\", \t") (h : b ∈ text) :
    b ∈ unicode.toUpper text := by
  unfold Unicode.toUpper
  split_ifs
  · have hall : ∀ x ∈ ascii "\", \t", upperByte x = x := by decide
    exact List.mem_map.2 ⟨b, h, hall b hb⟩
  · exact unicode.upperRunes_mem text b hb h

/-- The algorithm of a challenge that is answered has no byte that ends a bare
value. -/
theorem notMem_given {engine : Engine} {params : Record Bytes Bytes} {hash : HashName}
    (h : (newDigestChallenge engine params).hasher = some hash) {b : UInt8} (hb : b ∈ ascii "\", \t") :
    b ∉ param params "algorithm" := by
  intro hin
  have hupper := mem_toUpper engine.unicode hb hin
  apply notMem_algorithm h hb
  unfold newDigestChallenge
  dsimp only
  rw [if_neg (List.ne_nil_of_mem hupper)]
  exact hupper

section Answer

variable (engine : Engine) (c : DigestChallenge) (hash : HashName) (e : Exchange)

/-- The fields of `answer`, taken apart. -/
def answerFields : List Field :=
  let given := param c.params "algorithm"
  [⟨ascii "username", c.sentUsername engine hash e, true⟩, ⟨ascii "realm", param c.params "realm", true⟩,
    ⟨ascii "nonce", param c.params "nonce", true⟩, ⟨ascii "uri", e.uri, true⟩] ++
  (if c.qop ≠ [] then
    [⟨ascii "qop", c.qop, false⟩, ⟨ascii "nc", digestNonceCount, false⟩, ⟨ascii "cnonce", e.cnonce, true⟩] else []) ++
  [⟨ascii "response", c.response engine hash e, true⟩] ++
  (if given ≠ [] then [⟨ascii "algorithm", given, false⟩] else []) ++
  (match c.params.read (ascii "opaque") with
    | some opaqueValue => [⟨ascii "opaque", opaqueValue, true⟩]
    | none => []) ++
  (if c.userhash engine then [⟨ascii "userhash", ascii "true", false⟩] else [])

theorem map_text_answerFields : (answerFields engine c hash e).map Field.text = c.fields engine hash e := by
  have hquoted : ∀ (name equal : Bytes) (value : Bytes), equal = name ++ [61] →
      Field.text ⟨name, value, true⟩ = equal ++ quoteAuth value := by
    intro name equal value hname
    rw [hname, List.append_assoc]
    rfl
  have hbare : ∀ (name equal : Bytes) (value : Bytes), equal = name ++ [61] →
      Field.text ⟨name, value, false⟩ = equal ++ value := by
    intro name equal value hname
    rw [hname, List.append_assoc]
    rfl
  have huserhash : Field.text ⟨ascii "userhash", ascii "true", false⟩ = ascii "userhash=true" := by decide
  unfold answerFields DigestChallenge.fields
  simp only [List.map_append, List.map_cons, List.map_nil, apply_ite (List.map Field.text),
    hquoted (ascii "username") (ascii "username=") _ (by decide), hquoted (ascii "realm") (ascii "realm=") _ (by decide),
    hquoted (ascii "nonce") (ascii "nonce=") _ (by decide), hquoted (ascii "uri") (ascii "uri=") _ (by decide),
    hquoted (ascii "cnonce") (ascii "cnonce=") _ (by decide), hquoted (ascii "response") (ascii "response=") _ (by decide),
    hbare (ascii "qop") (ascii "qop=") _ (by decide), hbare (ascii "nc") (ascii "nc=") _ (by decide),
    hbare (ascii "algorithm") (ascii "algorithm=") _ (by decide), huserhash]
  cases c.params.read (ascii "opaque") with
  | none => rfl
  | some opaqueValue =>
      simp only [List.map_cons, List.map_nil, hquoted (ascii "opaque") (ascii "opaque=") _ (by decide)]

/-- The names of the fields, by which of them are there. -/
def fieldNames (hasQop hasAlgorithm hasOpaque hasUserhash : Bool) : List Bytes :=
  [ascii "username", ascii "realm", ascii "nonce", ascii "uri"] ++
  (if hasQop then [ascii "qop", ascii "nc", ascii "cnonce"] else []) ++ [ascii "response"] ++
  (if hasAlgorithm then [ascii "algorithm"] else []) ++ (if hasOpaque then [ascii "opaque"] else []) ++
  (if hasUserhash then [ascii "userhash"] else [])

theorem fieldNames_spec : ∀ hasQop hasAlgorithm hasOpaque hasUserhash,
    (fieldNames hasQop hasAlgorithm hasOpaque hasUserhash).Nodup ∧
      (∀ name ∈ fieldNames hasQop hasAlgorithm hasOpaque hasUserhash,
        name ≠ [] ∧ (∀ b ∈ name, b ∉ ascii " \t,=") ∧ isASCII name = true ∧ name.map lowerByte = name) ∧
      (ascii "cnonce" ∈ fieldNames hasQop hasAlgorithm hasOpaque hasUserhash ↔ hasQop = true) ∧
      (ascii "opaque" ∈ fieldNames hasQop hasAlgorithm hasOpaque hasUserhash ↔ hasOpaque = true) := by
  decide

theorem map_name_answerFields :
    (answerFields engine c hash e).map Field.name =
      fieldNames (c.qop ≠ []) (param c.params "algorithm" ≠ []) (c.params.read (ascii "opaque")).isSome (c.userhash engine) := by
  unfold answerFields fieldNames
  simp only [List.map_append, List.map_cons, List.map_nil, apply_ite (List.map Field.name), decide_eq_true_eq]
  cases c.params.read (ascii "opaque") <;> rfl

theorem plain_of_mem_answerFields {engine : Engine} {c : DigestChallenge} {hash : HashName} {e : Exchange}
    (hqop : c.qop = [] ∨ c.qop ∈ digestQopPreference)
    (hgiven : ∀ b ∈ ascii "\", \t", b ∉ param c.params "algorithm") {field : Field}
    (h : field ∈ answerFields engine c hash e) : field.Plain := by
  have hname : field.name ∈ fieldNames (c.qop ≠ []) (param c.params "algorithm" ≠ []) (c.params.read (ascii "opaque")).isSome
      (c.userhash engine) := by
    rw [← map_name_answerFields engine c hash e]
    exact List.mem_map_of_mem h
  obtain ⟨hne, htoken, -, -⟩ := (fieldNames_spec _ _ _ _).2.1 field.name hname
  refine ⟨hne, htoken, ?_⟩
  intro hbare
  have hvalue : field.value = c.qop ∨ field.value = digestNonceCount ∨ field.value = param c.params "algorithm" ∨
      field.value = ascii "true" := by
    unfold answerFields at h
    simp only [List.mem_append] at h
    rcases h with ((((h | h) | h) | h) | h) | h
    · simp only [List.mem_cons, List.not_mem_nil, or_false] at h
      rcases h with rfl | rfl | rfl | rfl <;> cases hbare
    · split_ifs at h
      · simp only [List.mem_cons, List.not_mem_nil, or_false] at h
        rcases h with rfl | rfl | rfl
        · exact .inl rfl
        · exact .inr (.inl rfl)
        · cases hbare
      · cases h
    · rw [List.mem_singleton] at h
      subst h
      cases hbare
    · split_ifs at h
      · rw [List.mem_singleton] at h
        subst h
        exact .inr (.inr (.inl rfl))
      · cases h
    · cases hopaqueText : c.params.read (ascii "opaque") with
      | none =>
          rw [hopaqueText] at h
          cases h
      | some opaqueValue =>
          rw [hopaqueText, List.mem_singleton] at h
          subst h
          cases hbare
    · split_ifs at h
      · rw [List.mem_singleton] at h
        subst h
        exact .inr (.inr (.inr rfl))
      · cases h
  rcases hvalue with hvalue | hvalue | hvalue | hvalue
  · rw [hvalue]
    rcases hqop with hnone | hpreferred
    · rw [hnone]
      exact List.forall_mem_nil _
    · have hall : ∀ option ∈ digestQopPreference, ∀ b ∈ option, b ∉ ascii "\", \t" := by decide
      exact hall c.qop hpreferred
  · rw [hvalue]
    decide
  · rw [hvalue]
    exact fun b hb hspecial => hgiven b hspecial hb
  · rw [hvalue]
    decide

theorem entry_of_mem_answerFields {field : Field} (h : field ∈ answerFields engine c hash e) :
    (field.entry engine.unicode).1 = field.name := by
  have hname : field.name ∈ fieldNames (c.qop ≠ []) (param c.params "algorithm" ≠ []) (c.params.read (ascii "opaque")).isSome
      (c.userhash engine) := by
    rw [← map_name_answerFields engine c hash e]
    exact List.mem_map_of_mem h
  obtain ⟨-, -, hascii, hlower⟩ := (fieldNames_spec _ _ _ _).2.1 field.name hname
  rw [Field.entry, Unicode.toLower, if_pos hascii, hlower]

def readParams : Record Bytes Bytes :=
  Record.ofEntries ((answerFields engine c hash e).map (Field.entry engine.unicode))

theorem keys_entries :
    Record.keys ((answerFields engine c hash e).map (Field.entry engine.unicode)) =
      fieldNames (c.qop ≠ []) (param c.params "algorithm" ≠ []) (c.params.read (ascii "opaque")).isSome (c.userhash engine) := by
  rw [← map_name_answerFields engine c hash e, Record.keys, List.map_map]
  apply List.map_congr_left
  intro field hmem
  exact entry_of_mem_answerFields engine c hash e hmem

theorem read_readParams {name value : Bytes} (h : (⟨name, value, true⟩ : Field) ∈ answerFields engine c hash e) :
    (readParams engine c hash e).read name = some value := by
  apply Record.read_ofEntries_of_mem
  · rw [keys_entries]
    exact (fieldNames_spec _ _ _ _).1
  · have hentry := entry_of_mem_answerFields engine c hash e h
    apply List.mem_map.2
    exact ⟨_, h, Prod.ext hentry rfl⟩

theorem read_readParams_of_notMem {name : Bytes}
    (h : name ∉ fieldNames (c.qop ≠ []) (param c.params "algorithm" ≠ []) (c.params.read (ascii "opaque")).isSome
      (c.userhash engine)) :
    (readParams engine c hash e).read name = none := by
  rw [← keys_entries engine c hash e] at h
  rw [readParams, Record.ofEntries_of_nodup _ (by rw [keys_entries]; exact (fieldNames_spec _ _ _ _).1)]
  exact (Record.read_eq_none_iff _ name).2 h

theorem mem_answerFields {field : Field}
    (h : field ∈ [(⟨ascii "username", c.sentUsername engine hash e, true⟩ : Field),
        ⟨ascii "realm", param c.params "realm", true⟩, ⟨ascii "nonce", param c.params "nonce", true⟩,
        ⟨ascii "uri", e.uri, true⟩] ∨
      field = ⟨ascii "response", c.response engine hash e, true⟩) :
    field ∈ answerFields engine c hash e := by
  unfold answerFields
  apply List.mem_append_left
  apply List.mem_append_left
  apply List.mem_append_left
  apply List.mem_append.2
  rcases h with hfirst | hresponse
  · exact .inl (List.mem_append_left _ hfirst)
  · exact .inr (List.mem_singleton.2 hresponse)

theorem mem_answerFields_cnonce (h : c.qop ≠ []) : (⟨ascii "cnonce", e.cnonce, true⟩ : Field) ∈ answerFields engine c hash e := by
  unfold answerFields
  apply List.mem_append_left
  apply List.mem_append_left
  apply List.mem_append_left
  apply List.mem_append_left
  apply List.mem_append_right
  rw [if_pos h]
  exact List.mem_cons_of_mem _ (List.mem_cons_of_mem _ List.mem_cons_self)

theorem mem_answerFields_opaqueText {opaqueValue : Bytes} (h : c.params.read (ascii "opaque") = some opaqueValue) :
    (⟨ascii "opaque", opaqueValue, true⟩ : Field) ∈ answerFields engine c hash e := by
  unfold answerFields
  apply List.mem_append_left
  apply List.mem_append_right
  rw [h]
  exact List.mem_cons_self

theorem read_cnonce : (readParams engine c hash e).read (ascii "cnonce") = if c.qop = [] then none else some e.cnonce := by
  by_cases hqop : c.qop = []
  · rw [if_pos hqop]
    apply read_readParams_of_notMem
    rw [(fieldNames_spec _ _ _ _).2.2.1]
    simp [hqop]
  · rw [if_neg hqop]
    exact read_readParams engine c hash e (mem_answerFields_cnonce engine c hash e hqop)

theorem read_opaque : (readParams engine c hash e).read (ascii "opaque") = c.params.read (ascii "opaque") := by
  cases hopaqueText : c.params.read (ascii "opaque") with
  | none =>
      apply read_readParams_of_notMem
      rw [(fieldNames_spec _ _ _ _).2.2.2]
      simp [hopaqueText]
  | some opaqueValue =>
      exact read_readParams engine c hash e (mem_answerFields_opaqueText engine c hash e hopaqueText)

end Answer

structure ReadAs (engine : Engine) (c : DigestChallenge) (hash : HashName) (e : Exchange) (challenge : AuthChallenge) :
    Prop where
  scheme : challenge.scheme = digestScheme
  username : challenge.params.read (ascii "username") = some (c.sentUsername engine hash e)
  realm : challenge.params.read (ascii "realm") = some (param c.params "realm")
  nonce : challenge.params.read (ascii "nonce") = some (param c.params "nonce")
  uri : challenge.params.read (ascii "uri") = some e.uri
  response : challenge.params.read (ascii "response") = some (c.response engine hash e)
  cnonce : challenge.params.read (ascii "cnonce") = if c.qop = [] then none else some e.cnonce
  opaqueValue : challenge.params.read (ascii "opaque") = c.params.read (ascii "opaque")

theorem readAs_readParams (engine : Engine) (c : DigestChallenge) (hash : HashName) (e : Exchange) :
    ReadAs engine c hash e ⟨ascii "digest", readParams engine c hash e⟩ := by
  constructor
  · rfl
  · apply read_readParams
    exact mem_answerFields engine c hash e (.inl List.mem_cons_self)
  · apply read_readParams
    exact mem_answerFields engine c hash e (.inl (List.mem_cons_of_mem _ List.mem_cons_self))
  · apply read_readParams
    exact mem_answerFields engine c hash e (.inl (List.mem_cons_of_mem _ (List.mem_cons_of_mem _ List.mem_cons_self)))
  · apply read_readParams
    exact mem_answerFields engine c hash e
      (.inl (List.mem_cons_of_mem _ (List.mem_cons_of_mem _ (List.mem_cons_of_mem _ List.mem_cons_self))))
  · apply read_readParams
    exact mem_answerFields engine c hash e (.inr rfl)
  · exact read_cnonce engine c hash e
  · exact read_opaque engine c hash e

theorem answer_eq {engine : Engine} {c : DigestChallenge} {hash : HashName} (e : Exchange) (h : c.hasher = some hash) :
    c.answer engine e = some (ascii "Digest " ++ List.intercalate (ascii ", ") (c.fields engine hash e)) := by
  rw [DigestChallenge.answer, h]
  rfl

theorem parse_answer {engine : Engine} {params : Record Bytes Bytes} {hash : HashName} (e : Exchange)
    (h : (newDigestChallenge engine params).hasher = some hash) :
    ∃ header, (newDigestChallenge engine params).answer engine e = some header ∧
      parseChallenges engine.unicode [header] =
        some [⟨ascii "digest", readParams engine (newDigestChallenge engine params) hash e⟩] := by
  refine ⟨_, answer_eq e h, ?_⟩
  rw [← map_text_answerFields, parseChallenges_fields]
  · rfl
  · exact List.ne_nil_of_mem (mem_answerFields engine _ hash e (.inr rfl))
  · intro field hmem
    refine plain_of_mem_answerFields (chooseQop_cases engine _) ?_ hmem
    exact fun b hb => notMem_given h hb

/-- Every list of headers is read without an access out of range, and the
answer to a challenge with a supported algorithm is read as one challenge with
the values it was made of. -/
theorem challenges_parse_and_answer_reads_back (engine : Engine) :
    (∀ headers, ∃ challenges, parseChallenges engine.unicode headers = some challenges) ∧
      ∀ (params : Record Bytes Bytes) (hash : HashName) (e : Exchange),
        (newDigestChallenge engine params).hasher = some hash →
          ∃ header challenge, (newDigestChallenge engine params).answer engine e = some header ∧
            parseChallenges engine.unicode [header] = some [challenge] ∧
              ReadAs engine (newDigestChallenge engine params) hash e challenge := by
  constructor
  · intro headers
    exact ⟨_, parseChallenges_eq engine.unicode headers⟩
  · intro params hash e h
    obtain ⟨header, hheader, hparse⟩ := parse_answer e h
    exact ⟨header, _, hheader, hparse, readAs_readParams engine _ hash e⟩

/-- Functions that are right for texts of ASCII; the hash is one that answers
the same for every text. -/
def plainEngine : Engine where
  unicode :=
    { lowerRunes := fun text => text
      upperRunes := fun text => text
      upperRunes_mem := fun _ _ _ h => h
      trimSpace := fun text => text
      nfc := fun text => text
      equalFold := fun first second => first.map lowerByte = second.map lowerByte }
  sum _ _ := List.replicate 16 0

def plainParams : Record Bytes Bytes :=
  [(ascii "realm", ascii "r"), (ascii "nonce", ascii "n")]

def plainExchange : Exchange where
  username := ascii "u"
  password := ascii "p"
  method := ascii "GET"
  uri := ascii "/"
  body := []
  cnonce := ascii "c"

theorem quoted_username_reads_back :
    ∃ header challenge, (newDigestChallenge plainEngine plainParams).answer plainEngine { plainExchange with username := ascii "a\"b" } =
        some header ∧ parseChallenges plainEngine.unicode [header] = some [challenge] ∧
      challenge.params.read (ascii "username") = some (ascii "a\"b") := by
  obtain ⟨header, challenge, hheader, hparse, hread⟩ :=
    (challenges_parse_and_answer_reads_back plainEngine).2 plainParams .md5 { plainExchange with username := ascii "a\"b" }
      (by decide +kernel)
  refine ⟨header, challenge, hheader, hparse, ?_⟩
  rw [hread.username]
  decide +kernel

/-- Without `qop` the answer has no `cnonce`. -/
theorem cnonce_not_read_back :
    ¬ ∃ engine : Engine, engine.unicode.trimSpace [] = [] ∧
      ∃ header challenge, (newDigestChallenge engine plainParams).answer engine plainExchange = some header ∧
        parseChallenges engine.unicode [header] = some [challenge] ∧
          challenge.params.read (ascii "cnonce") = some plainExchange.cnonce := by
  intro h
  obtain ⟨engine, htrim, header, challenge, hheader, hparse, hread⟩ := h
  have hupper : engine.unicode.toUpper [] = [] := rfl
  have hlower : engine.unicode.toLower [] = [] := rfl
  have hqop : (newDigestChallenge engine plainParams).qop = [] := by
    have hoffered : param plainParams "qop" = [] := by decide
    change chooseQop engine (param plainParams "qop") = []
    rw [hoffered, chooseQop, List.splitOn_nil, List.map_singleton, htrim, hlower]
    decide
  have hhash : (newDigestChallenge engine plainParams).hasher = some .md5 := by
    have hgiven : param plainParams "algorithm" = [] := by decide
    have halgorithm : (newDigestChallenge engine plainParams).algorithm = digestDefaultAlg := by
      unfold newDigestChallenge
      dsimp only
      rw [hgiven, hupper, if_pos rfl]
    rw [DigestChallenge.hasher, halgorithm]
    decide
  obtain ⟨other, hother, hparsed⟩ := parse_answer plainExchange hhash
  rw [hheader, Option.some.injEq] at hother
  rw [← hother, hparse, Option.some.injEq, List.cons.injEq] at hparsed
  rw [hparsed.1, read_cnonce, if_pos hqop] at hread
  cases hread

end Gostman.Auth
