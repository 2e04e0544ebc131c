import BlindBucket.Auth.Chunked

/-!
# The window of a presigned URL

`parsePresign` and `checkWindow` of `internal/auth/presign.go`. Times are nanoseconds, and what package `time` reads and
writes is a parameter. A duration is an `int64`: the seconds of `X-Amz-Expires` become one by a multiplication that wraps
around.
-/

namespace BlindBucket.Auth

open GoText

/-- What package `time` computes here, in UTC. -/
structure Calendar where
  /-- `time.Parse(amzDateFormat, _)`. -/
  parseAmzDate : Bytes → Option Int
  /-- `time.Parse(dateFormat, _)`. -/
  parseDate : Bytes → Option Int
  /-- `Format(dateFormat)`. -/
  date : Int → Bytes

def second : Int := 1000000000

def maxClockSkew : Int := 900 * second

/-- `url.Values.Get`. -/
def queryGet (query : Header) (name : String) : Bytes := (Header.values query (ascii name)).headD []

/-- `Credential`, without the service and the terminator, which are fixed. -/
structure Credential where
  accessKeyID : Bytes
  date : Bytes
  region : Bytes
deriving DecidableEq

def parseCredential (T : Calendar) (value : Bytes) : Try Credential :=
  match split 0x2F value with
  | [accessKeyID, date, region, service, terminator] =>
    if accessKeyID = [] then .error (wrapf .malformedAuth "%w: credential has no access key id" [])
    else if service ≠ ascii "s3" then
      .error (wrapf .malformedAuth "%w: credential names service %q, want %q" [.bytes service, .bytes (ascii "s3")])
    else if terminator ≠ ascii "aws4_request" then
      .error (wrapf .malformedAuth "%w: credential terminator is %q, want %q"
        [.bytes terminator, .bytes (ascii "aws4_request")])
    else if T.parseDate date = none then
      .error (wrapf .malformedAuth "%w: credential date %q is not %s" [.bytes date, .bytes (ascii "20060102")])
    else .ok ⟨accessKeyID, date, region⟩
  | parts => .error (wrapf .malformedAuth "%w: credential scope has %d parts, want 5" [.int parts.length])

structure PresignParams where
  credential : Credential
  signedHeaders : List Bytes
  signature : Bytes
  signedAt : Int
  expires : Int
deriving DecidableEq

def parsePresign (T : Calendar) (query : Header) : Try PresignParams :=
  let malformed {α : Type} (format : String) (name : String) (args : List Bytes) : Try α :=
    .error (wrapf .presignMalformed format (.bytes (ascii name) :: args.map .bytes))
  let got := queryGet query "X-Amz-Algorithm"
  if got ≠ algorithm then malformed "%w: %s is %q, want %q" "X-Amz-Algorithm" [got, algorithm]
  else do
    let credential ← parseCredential T (queryGet query "X-Amz-Credential")
    let signature := queryGet query "X-Amz-Signature"
    let raw := queryGet query "X-Amz-SignedHeaders"
    let date := queryGet query "X-Amz-Date"
    let expires := queryGet query "X-Amz-Expires"
    if signature = [] then malformed "%w: %s is empty" "X-Amz-Signature" []
    else if raw = [] then malformed "%w: %s is empty" "X-Amz-SignedHeaders" []
    else if ¬ (split 0x3B raw).any fun s => equalFold s (ascii "host") then
      malformed "%w: %s must include host" "X-Amz-SignedHeaders" []
    else
      match T.parseAmzDate date, (parseInt expires).filter (0 < ·) with
      | none, _ => malformed "%w: %s %q is not an ISO8601 basic timestamp" "X-Amz-Date" [date]
      | some _, none => malformed "%w: %s %q is not a positive number of seconds" "X-Amz-Expires" [expires]
      | some signedAt, some seconds =>
        let payload := queryGet query "X-Amz-Content-Sha256"
        if payload ≠ [] ∧ payload ≠ ascii "UNSIGNED-PAYLOAD" then
          malformed "%w: %s is %q; a presigned URL may carry only %s" "X-Amz-Content-Sha256"
            [payload, ascii "UNSIGNED-PAYLOAD"]
        else if T.date signedAt ≠ credential.date then
          .error (wrapf .presignMalformed "%w: timestamp %s does not match credential scope date %s"
            [.bytes (T.date signedAt), .bytes credential.date])
        else .ok ⟨credential, split 0x3B raw, signature, signedAt, Int.bmod (seconds * second) 18446744073709551616⟩

/-- `Verifier`, as far as the window needs it. -/
structure Verifier where
  maxPresignExpiry : Int
  maxUploadExpiry : Int
  now : Int

/-- `checkWindow`. Rounding to seconds in its errors is left out. -/
def Verifier.checkWindow (v : Verifier) (p : PresignParams) (method : Bytes) : Try Unit :=
  if method = ascii "PUT" ∧ v.maxUploadExpiry < p.expires then
    .error (wrapf .presignExpired "%w: %s is %s, and this gateway accepts at most %s for an upload"
      [.bytes (ascii "X-Amz-Expires"), .int p.expires, .int v.maxUploadExpiry])
  else if v.maxPresignExpiry < p.expires then
    .error (wrapf .presignExpired "%w: %s is %s, and this gateway accepts at most %s"
      [.bytes (ascii "X-Amz-Expires"), .int p.expires, .int v.maxPresignExpiry])
  else if v.now < p.signedAt - maxClockSkew then
    .error (wrapf .requestTimeTooSkewed "%w: signed %s in the future" [.int (p.signedAt - v.now)])
  else if p.signedAt + p.expires < v.now then
    .error (wrapf .presignExpired "%w: it expired %s ago" [.int (v.now - (p.signedAt + p.expires))])
  else .ok ()

variable {T : Calendar} {query : Header} {p : PresignParams} {v : Verifier} {method : Bytes} {e : Int}

/-- The window of an accepted URL is the number of seconds, wrapped around. -/
theorem parsePresign_expires (h : parsePresign T query = .ok p)
    (he : parseInt (queryGet query "X-Amz-Expires") = some e) :
    1 ≤ e ∧ p.expires = Int.bmod (e * second) 18446744073709551616 := by
  obtain ⟨-, h⟩ := else_ok h
  obtain ⟨credential, -, h⟩ := bind_ok h
  obtain ⟨-, h⟩ := else_ok h
  obtain ⟨-, h⟩ := else_ok h
  obtain ⟨-, h⟩ := else_ok h
  rw [he] at h
  split at h
  · cases h
  · cases h
  · next signedAt seconds _ hseconds =>
    obtain ⟨-, h⟩ := else_ok h
    obtain ⟨-, h⟩ := else_ok h
    cases h
    obtain ⟨hsome, hpos⟩ := Option.filter_eq_some_iff.mp hseconds
    cases hsome
    have hpos : 0 < e := by simpa using hpos
    exact ⟨hpos, rfl⟩

theorem checkWindow_ok (h : v.checkWindow p method = .ok ()) :
    (method = ascii "PUT" → p.expires ≤ v.maxUploadExpiry) ∧ p.expires ≤ v.maxPresignExpiry ∧
      p.signedAt - maxClockSkew ≤ v.now ∧ v.now ≤ p.signedAt + p.expires := by
  obtain ⟨hput, h⟩ := else_ok h
  obtain ⟨hread, h⟩ := else_ok h
  obtain ⟨hearly, h⟩ := else_ok h
  obtain ⟨hlate, -⟩ := else_ok h
  exact ⟨fun hm => not_lt.mp fun hlt => hput ⟨hm, hlt⟩, not_lt.mp hread, not_lt.mp hearly, not_lt.mp hlate⟩

/-- An accepted URL keeps to the caps and to its window, as integers, exactly if its seconds are a duration. -/
theorem presign_window_iff (hp : parsePresign T query = .ok p) (hw : v.checkWindow p method = .ok ())
    (he : parseInt (queryGet query "X-Amz-Expires") = some e) (hcap : v.maxPresignExpiry ≤ maxInt64) :
    (1 ≤ e ∧ e * second ≤ v.maxPresignExpiry ∧ (method = ascii "PUT" → e * second ≤ v.maxUploadExpiry) ∧
        p.signedAt - maxClockSkew ≤ v.now ∧ v.now ≤ p.signedAt + e * second) ↔ e * second ≤ maxInt64 := by
  obtain ⟨hpos, hexpires⟩ := parsePresign_expires hp he
  obtain ⟨hput, hread, hearly, hlate⟩ := checkWindow_ok hw
  constructor
  · rintro ⟨-, hle, -⟩
    exact hle.trans hcap
  · intro hfits
    have hsame : p.expires = e * second := by
      rw [hexpires]
      unfold maxInt64 second at *
      simp only [Int.bmod]
      omega
    rw [hsame] at hput hread hlate
    exact ⟨hpos, hread, hput, hearly, hlate⟩

/-- A URL that was signed at time zero and is used then. -/
def presignedQuery (expires : String) : Header :=
  [("X-Amz-Algorithm", "AWS4-HMAC-SHA256"), ("X-Amz-Credential", "a/19700101/r/s3/aws4_request"),
    ("X-Amz-Signature", "0"), ("X-Amz-SignedHeaders", "host"), ("X-Amz-Date", "19700101T000000Z"),
    ("X-Amz-Expires", expires)].map fun q => (ascii q.1, [ascii q.2])

/-- What is read from it, on the only day of the calendar. -/
def presigned (expires : Int) : PresignParams :=
  ⟨⟨ascii "a", ascii "19700101", ascii "r"⟩, [ascii "host"], ascii "0", 0, expires⟩

def epochDay : Calendar := ⟨fun _ => some 0, fun _ => some 0, fun _ => ascii "19700101"⟩

theorem presign_window_iff_hour : 3600 * second ≤ maxInt64 ∧ (1 : Int) ≤ 3600 ∧
    3600 * second ≤ 604800 * second ∧ (ascii "PUT" = ascii "PUT" → 3600 * second ≤ 3600 * second) ∧
    0 - maxClockSkew ≤ 0 ∧ 0 ≤ 0 + 3600 * second := by
  have hp : parsePresign epochDay (presignedQuery "3600") = .ok (presigned (3600 * second)) := by decide +kernel
  have hw : Verifier.checkWindow ⟨604800 * second, 3600 * second, 0⟩ (presigned (3600 * second)) (ascii "PUT") =
    .ok () := by decide +kernel
  have he : parseInt (queryGet (presignedQuery "3600") "X-Amz-Expires") = some 3600 := by decide +kernel
  have hfits : 3600 * second ≤ maxInt64 := by decide
  exact ⟨hfits, (presign_window_iff hp hw he (by decide)).mpr hfits⟩

/-- `2 ^ 55 + 1` seconds are taken for one. -/
theorem presign_window_wraps : parsePresign epochDay (presignedQuery "36028797018963969") = .ok (presigned second) ∧
      Verifier.checkWindow ⟨604800 * second, 3600 * second, 0⟩ (presigned second) (ascii "PUT") = .ok () ∧
      604800 * second < 36028797018963969 * second :=
  ⟨by decide +kernel, by decide +kernel, by decide⟩

end BlindBucket.Auth
