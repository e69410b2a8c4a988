import NodeInventory.Credentials.Der
import NodeInventory.Text

/-!
# Credential files and certificates

The sections of credential files, and what is read of a certificate in one.
-/

namespace NodeInventory

/-!
## Sections of credential files

A credential file holds sections between lines such as `-----BEGIN CERTIFICATE-----` and
`-----END CERTIFICATE-----`, each with bytes in base64; the text around them is skipped, and so are
sections of kinds that are not known.

`sections?` reads them all. It fails if a section is not closed, does not begin properly or is not
base64.
-/

namespace Pem

/-- The kinds of sections. -/
inductive Kind where
  | certificate
  | publicKey
  | privateKey
  | rsaPrivateKey
  | ecPrivateKey
  | revocationList
  | certificateRequest
  | encryptedHello
deriving DecidableEq, Repr

namespace Kind

/-- All kinds. -/
def all : List Kind :=
  [certificate, publicKey, privateKey, rsaPrivateKey, ecPrivateKey, revocationList,
    certificateRequest, encryptedHello]

/-- The label of a kind. -/
def label : Kind → String
  | certificate => "CERTIFICATE"
  | publicKey => "PUBLIC KEY"
  | privateKey => "PRIVATE KEY"
  | rsaPrivateKey => "RSA PRIVATE KEY"
  | ecPrivateKey => "EC PRIVATE KEY"
  | revocationList => "X509 CRL"
  | certificateRequest => "CERTIFICATE REQUEST"
  | encryptedHello => "ECHCONFIG"

/-- The kind of a label. -/
def ofLabel? (s : List Char) : Option Kind := all.find? fun kind => kind.label.toList = s

end Kind

/-- A section: its kind and its bytes. -/
structure Section where
  kind : Kind
  bytes : List UInt8
deriving DecidableEq, Repr

/-! ### Lines -/

/-- A character that ends a line. -/
def endsLine (c : Char) : Bool := c = '\n' || c = '\r'

/-- The lines of a text, without their ends. -/
def lines : List Char → List (List Char)
  | [] => [[]]
  | c :: s =>
    if endsLine c then [] :: lines s
    else match lines s with
      | [] => [[c]]
      | line :: rest => (c :: line) :: rest

/-- The text after a word that it begins with. -/
def after? : (word s : List Char) → Option (List Char)
  | [], s => some s
  | _ :: _, [] => none
  | w :: word, c :: s => if w = c then after? word s else none

/-- The mark of the beginning of a section. -/
def beginMark : List Char := "-----BEGIN ".toList

/-- The mark of the end of a section. -/
def endMark : List Char := "-----END ".toList

/-- The dashes behind a label. -/
def dashes : List Char := "-----".toList

/-- The label in the rest of a line that begins a section: what stands before the last five dashes,
with nothing but blanks after or among them, and no dash before them. -/
def label? (s : List Char) : Option (List Char) :=
  let isTail (c : Char) : Bool := c = '-' || c = ' '
  let tail := (s.reverse.takeWhile isTail).reverse
  if tail.count '-' = 5 then
    some ((s.reverse.dropWhile isTail).reverse ++ tail.takeWhile (· ≠ '-'))
  else none

/-- The line closes the section of a label. -/
def closes (label line : List Char) : Bool := (after? (endMark ++ label ++ dashes) line).isSome

/-! ### Sections -/

/-- The sections of lines; `label` is that of the section that is open, and `body` what it holds. -/
def readSections (label : Option (List Char)) (body : List Char) :
    List (List Char) → Option (List Section)
  | [] => if label.isSome then none else some []
  | line :: rest =>
    match after? beginMark line with
    | some tail => do readSections (some (← label? tail)) body rest
    | none =>
      match label with
      | none => readSections none body rest
      | some name =>
        if closes name line then
          match Kind.ofLabel? name with
          | none => readSections none [] rest
          | some kind => do
            let bytes ← Text.Base64.decode body
            return ⟨kind, bytes⟩ :: (← readSections none [] rest)
        else readSections label (body ++ line) rest

/-- The sections of a text. -/
def sections? (s : List Char) : Option (List Section) := readSections none [] (lines s)

end Pem

/-!
## Certificates

`Certificate.ofBytes?` reads a certificate as far as it matters who owns it: the public key in it.
It has to be of the third version, and may ask for nothing that is not understood.

`Certificate.isTrustworthy` says that bytes can be trusted as a certificate; of one without a
version, which has no extensions, only the form is looked at.
-/

section

open Der

/-! ### Extensions -/

/-- An extension of a certificate: its object identifier, whether it has to be understood, and what
it says. -/
structure Extension where
  identifier : List UInt8
  critical : Bool
  value : List UInt8
deriving DecidableEq, Repr

namespace Extension

/-- The truth value in a byte. -/
def criticalOf? : List UInt8 → Option Bool
  | [0xFF] => some true
  | [0x00] => some false
  | _ => none

/-- The extension in a sequence. It does not have to be understood unless it says so. -/
def ofElement? (e : Element) : Option Extension := do
  match ← e.children? with
  | [identifier, value] =>
    return ⟨← identifier.contentIf? identifierTag, false, ← value.contentIf? octetStringTag⟩
  | [identifier, critical, value] =>
    return ⟨← identifier.contentIf? identifierTag, ← criticalOf? (← critical.contentIf? booleanTag),
      ← value.contentIf? octetStringTag⟩
  | _ => none

/-- The identifier of what a key may be used for, which is a string of bits. -/
def keyUsage : List UInt8 := [0x55, 0x1D, 15]

/-- The identifiers of the other extensions that are understood: other names, whether the owner may
sign, names that may be signed, where revocations are, and purposes. -/
def sequences : List (List UInt8) := [17, 19, 30, 31, 37].map fun n => [0x55, 0x1D, n]

/-- The extension is understood. -/
def isKnown (e : Extension) : Bool := e.identifier = keyUsage || sequences.contains e.identifier

/-- The extension does no harm: it has the form of its kind, or may be skipped. -/
def isSound (e : Extension) : Bool :=
  if e.identifier = keyUsage then true
  else if sequences.contains e.identifier then (only? e.value).any fun v => v.tag = sequenceTag
  else !e.critical

/-- Each extension is sound, and none that is understood occurs twice. -/
def areSound (es : List Extension) : Bool :=
  let known := (es.filter isKnown).map identifier
  es.all isSound && known.all fun i => known.count i = 1

end Extension

/-! ### Certificates -/

/-- The parts of a signed structure. -/
structure Signed where
  /-- The elements that are signed. -/
  elements : List Element
  /-- The algorithm of the signature. -/
  algorithm : Element
deriving DecidableEq, Repr

/-- The signed structure that bytes encode: what is signed, the algorithm and the signature. -/
def Signed.ofBytes? (bytes : List UInt8) : Option Signed := do
  match ← (← only? bytes).children? with
  | [signed, algorithm, signature] =>
    if algorithm.tag = sequenceTag ∧ signature.wholeBytes?.isSome then
      return ⟨← signed.children?, algorithm⟩
    else none
  | _ => none

/-- A certificate. -/
structure Certificate where
  /-- The public key: its algorithm and its bytes. -/
  publicKeyInfo : List UInt8
deriving DecidableEq, Repr

namespace Certificate

/-- The field that names the third version, which is counted from zero. -/
def versionField : Element := ⟨fieldTag 0, (Element.ofNatural 2).encode⟩

/-- The elements are what a certificate signs behind its version: a serial number, the algorithm of
the signature, the issuer, the time of validity and the subject. -/
def haveForm : List Element → Bool
  | [serial, algorithm, issuer, validity, subject] =>
    serial.tag = integerTag && [algorithm, issuer, validity, subject].all (·.tag = sequenceTag)
  | _ => false

/-- The extensions in the field for them, if there is one. -/
def extensions? : List Element → Option (List Extension)
  | [] => some []
  | [field] => do
    match ← field.childrenIf? (fieldTag 3) with
    | [extensions] => (← extensions.children?).mapM Extension.ofElement?
    | _ => none
  | _ => none

/-- The certificate in a signed structure: a version, what `haveForm` lists, the public key and
extensions. The algorithm of the signature is the one that is signed as well. -/
def ofSigned? (s : Signed) : Option Certificate := do
  match s.elements with
  | version :: serial :: algorithm :: issuer :: validity :: subject :: key :: fields =>
    if version = versionField ∧ algorithm = s.algorithm ∧
        haveForm [serial, algorithm, issuer, validity, subject] ∧
        Extension.areSound (← extensions? fields) then
      return ⟨← key.contentIf? sequenceTag⟩
    else none
  | _ => none

/-- The certificate that bytes encode. -/
def ofBytes? (bytes : List UInt8) : Option Certificate := do ofSigned? (← Signed.ofBytes? bytes)

/-- The structure is a certificate without a version. -/
def isUnversioned (s : Signed) : Bool :=
  match s.elements with
  | [serial, algorithm, issuer, validity, subject, key] =>
    haveForm [serial, algorithm, issuer, validity, subject] && key.tag = sequenceTag
  | _ => false

/-- The bytes can be trusted as a certificate. -/
def isTrustworthy (bytes : List UInt8) : Bool :=
  match Signed.ofBytes? bytes with
  | some s => (ofSigned? s).isSome || isUnversioned s
  | none => false

end Certificate

end

end NodeInventory
