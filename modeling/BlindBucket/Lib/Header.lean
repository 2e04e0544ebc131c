import BlindBucket.Lib.GoText

/-!
# HTTP headers

`http.Header` of Go: a map from names in a canonical spelling to the values sent under
them. The map is a list of entries here; a range over it goes through the entries in some
order, which callers take as given.
-/

namespace GoText

abbrev Header := List (Bytes × List Bytes)

/-- The bytes of a token, which a header name is made of. -/
def tokenByte (b : UInt8) : Bool :=
  (0x30 ≤ b && b ≤ 0x39) || (0x41 ≤ b && b ≤ 0x5A) || (0x61 ≤ b && b ≤ 0x7A)
    || b ∈ [0x21, 0x23, 0x24, 0x25, 0x26, 0x27, 0x2A, 0x2B, 0x2D, 0x2E, 0x5E, 0x5F, 0x60, 0x7C, 0x7E]

/-- Capitals at the start and after a hyphen, lower case everywhere else. -/
def capitalize (first : Bool) : Bytes → Bytes
  | [] => []
  | b :: s => (if first then upper b else lower b) :: capitalize (b == 0x2D) s

/-- `textproto.CanonicalMIMEHeaderKey`. A name that is no token is left as it is. -/
def canonicalKey (name : Bytes) : Bytes :=
  if name.all tokenByte then capitalize true name else name

/-- The values under a name, as the map holds them. -/
def Header.values (h : Header) (key : Bytes) : List Bytes :=
  ((h.find? fun entry => entry.1 == key).map Prod.snd).getD []

/-- The first value, or the empty string. -/
def Header.get (h : Header) (name : Bytes) : Bytes :=
  (Header.values h (canonicalKey name)).headD []

/-- Replace what the map holds under a key. -/
def Header.put (key value : Bytes) : Header → Header
  | [] => [(key, [value])]
  | entry :: rest => if entry.1 = key then (key, [value]) :: rest else entry :: Header.put key value rest

def Header.set (h : Header) (name value : Bytes) : Header := h.put (canonicalKey name) value

theorem forall_byte {p : UInt8 → Prop} (h : ∀ n < 256, p (UInt8.ofNat n)) (b : UInt8) : p b := by
  have hb := h b.toNat b.toNat_lt
  rwa [UInt8.ofNat_toNat] at hb

end GoText
