import NodeInventory.Credentials.Certificate
import NodeInventory.Credentials.Curve
import NodeInventory.Credentials.Der
import NodeInventory.Protocol

/-!
# Private keys and identities

Keys of all kinds, whether they belong to a certificate, and whether the files of a client hold an
identity.
-/

namespace NodeInventory

/-!
## RSA keys

`RsaKey.ofBytes?` reads the eight numbers of a private RSA key. `RsaKey.isSound` says that they are
of the sizes in use and agree with each other, as far as this can be seen without factoring.
-/

section

open Der

/-- The numbers of a private key. -/
structure RsaKey where
  modulus : Nat
  /-- The exponent that is known to all. -/
  exponent : Nat
  /-- The exponent that undoes the other one. -/
  secret : Nat
  /-- The two primes that make the modulus. -/
  p : Nat
  q : Nat
  /-- The secret exponent as it acts on residues of each prime. -/
  secretP : Nat
  secretQ : Nat
  /-- The inverse of `q` among the residues of `p`. -/
  inverseQ : Nat
deriving DecidableEq, Repr

namespace RsaKey

/-- The key in a sequence of a version, which is zero, and the eight numbers. -/
def ofBytes? (bytes : List UInt8) : Option RsaKey := do
  match ← (← (← only? bytes).children?).mapM Element.natural? with
  | [0, n, e, d, p, q, dp, dq, qi] => return ⟨n, e, d, p, q, dp, dq, qi⟩
  | _ => none

/-- The number is odd. -/
def isOdd (n : Nat) : Bool := n % 2 = 1

/-- The modulus has at least 256 bytes and at most 4096 bits, and the length of its half is a
multiple of 512 bits. -/
def hasSoundModulus (k : RsaKey) : Bool :=
  let bits := Octets.bitLength k.modulus
  isOdd k.modulus && 2041 ≤ bits && bits ≤ 4096 && (bits + 1) / 2 % 512 = 0

/-- The public exponent is odd and has at least 17 and at most 33 bits. -/
def hasSoundExponent (k : RsaKey) : Bool :=
  isOdd k.exponent && 65537 ≤ k.exponent && Octets.bitLength k.exponent ≤ 33

/-- The primes are of half the length of the modulus and make it. -/
def hasSoundPrimes (k : RsaKey) : Bool :=
  let half := (Octets.bitLength k.modulus + 1) / 2
  isOdd k.p && Octets.bitLength k.p = half && isOdd k.q && Octets.bitLength k.q = half
    && k.p * k.q % k.modulus = 0

/-- The secret exponents are odd, not above what they act on, and the whole one is longer than half
the modulus; the inverse is one. -/
def hasSoundSecrets (k : RsaKey) : Bool :=
  isOdd k.secret && k.secret < k.modulus
    && (Octets.bitLength k.modulus + 1) / 2 < Octets.bitLength k.secret
    && isOdd k.secretP && k.secretP < k.p && isOdd k.secretQ && k.secretQ < k.q
    && k.inverseQ < k.p && k.inverseQ * k.q % k.p = 1

/-- The numbers of the key agree. -/
def isSound (k : RsaKey) : Bool :=
  k.hasSoundModulus && k.hasSoundExponent && k.hasSoundPrimes && k.hasSoundSecrets

/-- The public numbers as they are written. -/
def publicBytes (k : RsaKey) : List UInt8 :=
  Element.encode ⟨sequenceTag,
    (Element.ofNatural k.modulus).encode ++ (Element.ofNatural k.exponent).encode⟩

end RsaKey

end

/-!
## Private keys

A private key is an RSA key, a number for an elliptic curve or a seed. `PrivateKey.publicBytes` is
the public key that belongs to it, as it is written.

`KeyRecord.ofSection?` reads the section of a private key, in which a public key may be written as
well. `KeyRecord.fits` says that the private key is sound, and that its public key is the one
written beside it and the one in a certificate.
-/

section

open Der

/-- What a key is for. -/
inductive KeyAlgorithm where
  | rsa
  | curve (c : Curve)
  | edwards
deriving DecidableEq, Repr

namespace KeyAlgorithm

/-- The algorithms. -/
def all : List KeyAlgorithm := rsa :: edwards :: Curve.all.map curve

/-- The element that holds an object identifier. -/
def identifier (content : List UInt8) : List UInt8 := Element.encode ⟨identifierTag, content⟩

/-- The name of an algorithm: its object identifier, and what else has to be known of it. -/
def encode : KeyAlgorithm → List UInt8
  | rsa =>
    identifier [0x2A, 0x86, 0x48, 0x86, 0xF7, 0x0D, 0x01, 0x01, 0x01] ++ Element.encode ⟨nullTag, []⟩
  | curve c => identifier [0x2A, 0x86, 0x48, 0xCE, 0x3D, 0x02, 0x01] ++ identifier c.identifier
  | edwards => identifier [0x2B, 0x65, 0x70]

/-- The algorithm with a name. -/
def ofBytes? (bytes : List UInt8) : Option KeyAlgorithm := all.find? fun a => a.encode = bytes

end KeyAlgorithm

/-- What certificates hold of a public key: its algorithm and its bytes. -/
def publicKeyInfo (algorithm : KeyAlgorithm) (bytes : List UInt8) : List UInt8 :=
  Element.encode ⟨sequenceTag, algorithm.encode⟩ ++ (Element.ofWholeBytes bytes).encode

/-- A private key. -/
inductive PrivateKey where
  | rsa (key : RsaKey)
  | curve (c : Curve) (secret : Nat)
  | edwards (seed : List UInt8)
deriving DecidableEq, Repr

namespace PrivateKey

/-- The algorithm of a key. -/
def algorithm : PrivateKey → KeyAlgorithm
  | rsa _ => .rsa
  | curve c _ => .curve c
  | edwards _ => .edwards

/-- The key is one of those that the algorithm has. -/
def isSound : PrivateKey → Bool
  | rsa key => key.isSound
  | curve c secret => 0 < secret && secret < c.order
  | edwards seed => seed.length = 32

/-- The public key that belongs to a key, as it is written. -/
def publicBytes : PrivateKey → List UInt8
  | rsa key => key.publicBytes
  | curve c secret => c.encode (c.publicPoint secret)
  | edwards seed => Edwards.publicKey seed

end PrivateKey

/-- A private key, and the public key written beside it, if there is one. -/
structure KeyRecord where
  key : PrivateKey
  publicBytes : Option (List UInt8)
deriving DecidableEq, Repr

namespace KeyRecord

/-- The record of an RSA key: the numbers of the key. -/
def rsaOfBytes? (bytes : List UInt8) : Option KeyRecord := do
  return ⟨.rsa (← RsaKey.ofBytes? bytes), none⟩

/-- The public key in the fields behind the number of a curve key, the first of which may name the
curve. -/
def publicOfFields? (c : Curve) (fields : List Element) : Option (List UInt8) := do
  let curveField : Element := ⟨fieldTag 0, KeyAlgorithm.identifier c.identifier⟩
  match if fields.head? = some curveField then fields.tail else fields with
  | [field] =>
    match ← field.childrenIf? (fieldTag 1) with
    | [bits] => bits.wholeBytes?
    | _ => none
  | _ => none

/-- The record of a key for a curve: a version, which is one, a number of the curve's width and the
public key. -/
def curveOfBytes? (bytes : List UInt8) (c : Curve) : Option KeyRecord := do
  match ← (← only? bytes).children? with
  | version :: secret :: fields =>
    let secret ← secret.contentIf? octetStringTag
    if (← version.natural?) = 1 ∧ secret.length = c.width then
      return ⟨.curve c (Octets.ofBigEndian secret), some (← publicOfFields? c fields)⟩
    else none
  | _ => none

/-- The record of a seed: its bytes. -/
def edwardsOfBytes? (bytes : List UInt8) (publicBytes : Option (List UInt8)) :
    Option KeyRecord := do
  return ⟨.edwards (← (← only? bytes).contentIf? octetStringTag), publicBytes⟩

/-- The public key in the field that a record of the second version has for it, with a tag of its
own or without. -/
def publicOfField? (field : Element) : Option (List UInt8) := do
  if field.tag = bareFieldTag 1 then Element.bytesOfBits? field.content
  else match ← field.childrenIf? (fieldTag 1) with
    | [bits] => bits.wholeBytes?
    | _ => none

/-- The record of a key that names its algorithm: a version, the algorithm, the bytes of the key,
attributes, which are skipped, and a public key if the version is one. Only a seed may be of that
version. -/
def ofBytes? (bytes : List UInt8) : Option KeyRecord := do
  match ← (← only? bytes).children? with
  | version :: algorithm :: key :: fields =>
    let version ← version.natural?
    let algorithm ← KeyAlgorithm.ofBytes? (← algorithm.contentIf? sequenceTag)
    let key ← key.contentIf? octetStringTag
    let fields := if fields.head?.any fun f => f.tag = fieldTag 0 then fields.tail else fields
    match algorithm, version, fields with
    | .rsa, 0, [] => rsaOfBytes? key
    | .curve c, 0, [] => curveOfBytes? key c
    | .edwards, 0, [] => edwardsOfBytes? key none
    | .edwards, 1, [field] => edwardsOfBytes? key (some (← publicOfField? field))
    | _, _, _ => none
  | _ => none

/-- The record in a section; the section's label says how it is written. -/
def ofSection? (s : Pem.Section) : Option KeyRecord :=
  match s.kind with
  | .privateKey => ofBytes? s.bytes
  | .rsaPrivateKey => rsaOfBytes? s.bytes
  | .ecPrivateKey => Curve.all.findSome? (curveOfBytes? s.bytes)
  | _ => none

/-- The private key is sound, and its public key is the one that is written beside it and in a
certificate. -/
def fits (r : KeyRecord) (info : List UInt8) : Bool :=
  let bytes := r.key.publicBytes
  r.key.isSound && r.publicBytes.all (fun b => b = bytes)
    && info = publicKeyInfo r.key.algorithm bytes

end KeyRecord

end

/-!
## Credentials

A client trusts the certificates in one file and shows a certificate of its own, for which it
needs the key. `CredentialFiles.check` says whether files can be used for this, and if not, what
is wrong with the first that cannot.

The files are read in the order trusted certificates, own certificate, key; the trusted
certificates are found in their file before the next one is read. That the bytes of a section are
a certificate or a key, and that the key belongs to the certificate, is looked at in the end.
-/

/-- A file: its path, and its text if it exists. -/
structure CredentialFile where
  path : String
  text : Option (List Char)

/-- The text of a file. -/
def CredentialFile.read (f : CredentialFile) : Except ClientError (List Char) :=
  match f.text with
  | some text => .ok text
  | none =>
    .error (.configuration s!"Failed to read {f.path}: No such file or directory (os error 2)")

/-- The files of a client. -/
structure CredentialFiles where
  trusted : CredentialFile
  certificate : CredentialFile
  /-- The key, if it is not in the file of the certificate. -/
  key : Option CredentialFile

/-- A certificate and its key, as the sections that hold them. -/
structure Identity where
  /-- The own certificate, and others that lead from it to a trusted one. -/
  chain : List Pem.Section
  key : Pem.Section

/-- The section holds a certificate. -/
def Pem.Section.isCertificate (s : Pem.Section) : Bool := s.kind = .certificate

/-- The section holds a private key. -/
def Pem.Section.isPrivateKey (s : Pem.Section) : Bool :=
  s.kind = .privateKey || s.kind = .rsaPrivateKey || s.kind = .ecPrivateKey

namespace Identity

/-- The identity in a text that holds certificates and private keys and no other sections; the last
key counts. -/
def ofText? (text : List Char) : Option Identity := do
  let sections ← Pem.sections? text
  let certificates := sections.filter Pem.Section.isCertificate
  if certificates = [] ∨ !sections.all fun s => s.isCertificate || s.isPrivateKey then none
  else return ⟨certificates, ← (sections.filter Pem.Section.isPrivateKey).getLast?⟩

/-- The first certificate is one, and the key is its key. The other certificates are shown as they
are. -/
def isSound (identity : Identity) : Bool :=
  match identity.chain.head?.bind (Certificate.ofBytes? ·.bytes),
      KeyRecord.ofSection? identity.key with
  | some certificate, some record => record.fits certificate.publicKeyInfo
  | _, _ => false

end Identity

namespace CredentialFiles

/-- The trusted certificates in a text, at least one. -/
def readTrusted (path : String) (text : List Char) : Except ClientError (List Pem.Section) :=
  match Pem.sections? text with
  | none => .error (.configuration ⟨"Invalid CA bundle " ++ path, some .bundle⟩)
  | some sections =>
    match sections.filter Pem.Section.isCertificate with
    | [] => .error (.configuration ("No certificates found in CA bundle " ++ path))
    | certificates => .ok certificates

/-- The first thing that is wrong with the files of a client, if there is any. -/
def check (files : CredentialFiles) : Except ClientError Unit := do
  let trusted ← readTrusted files.trusted.path (← files.trusted.read)
  let certificate ← files.certificate.read
  let text ← match files.key with
    | none => pure certificate
    | some key => pure (certificate ++ '\n' :: (← key.read))
  let some identity := Identity.ofText? text
    | .error (.configuration
        ⟨"Invalid client certificate " ++ files.certificate.path, some .identity⟩)
  if identity.isSound && trusted.all fun s => Certificate.isTrustworthy s.bytes then return ()
  else .error (.configuration ⟨"Failed to build HTTP client", some .credentials⟩)

end CredentialFiles

end NodeInventory
