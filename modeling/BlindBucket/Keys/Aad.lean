import BlindBucket.ObjectMeta

/-!
# Associated data of wrapped keys

Each kind of wrapped key has associated data of its own. The fields that vary carry their length,
so that no two objects have the same.
-/

namespace BlindBucket.Keys

open ByteIo GoText ObjectMeta

def aadObjectPrefix : Bytes := ascii "blindbucket/v1/dek"
def aadFilePrefix : Bytes := ascii "blindbucket/v1/dek-file"
def aadKEKPrefix : Bytes := ascii "blindbucket/v1/kek"
def auditAAD : Bytes := ascii "blindbucket/v1/audit-secret"
def nameAAD : Bytes := ascii "blindbucket/v1/name-key"
def freshnessAAD : Bytes := ascii "blindbucket/v1/freshness-key"
def aadDirectory : Bytes := ascii "blindbucket/v1/directory"
def aadTenantKEKPrefix : Bytes := ascii "blindbucket/v1/tenant-kek"
def aadTenantNamePrefix : Bytes := ascii "blindbucket/v1/tenant-name-key"

/-- A field after its length in two bytes. -/
def appendLP (dst x : Bytes) : Try Bytes :=
  if 0xffff < x.length then
    .error (errorf "keys: field of %d bytes exceeds the length prefix" [.int x.length])
  else .ok (dst ++ (beBytes 2 x.length ++ x))

def objectAAD (kid bucket key : Bytes) : Try Bytes := do
  validateKID kid
  let aad ← appendLP aadObjectPrefix kid
  let aad ← appendLP aad bucket
  appendLP aad key

def fileAAD (kid : Bytes) : Try Bytes := do
  validateKID kid
  appendLP aadFilePrefix kid

def kekAAD (kid : Bytes) : Try Bytes := do
  validateKID kid
  appendLP aadKEKPrefix kid

def tenantKEKAAD (tenant kid : Bytes) : Try Bytes := do
  let aad ← appendLP aadTenantKEKPrefix tenant
  appendLP aad kid

def tenantNameAAD (tenant : Bytes) : Try Bytes :=
  appendLP aadTenantNamePrefix tenant

end BlindBucket.Keys
