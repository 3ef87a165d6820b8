import TypeFlow.Text.Utf8
import TypeFlow.Types.Naming

/-!
# Fingerprints

What a type shows without following its components further than one step. Equal types have equal
fingerprints, so only types with the same fingerprint need to be compared. A hash of a type is a hash
of its fingerprint; the members of a union count as a collection without order.

A fingerprint is made of bytes, because the number of members of a union is written as a number of four
bytes, which no name can hold by accident.
-/

namespace TypeFlow

/-- What a type shows at first sight: some bytes, and the members of a union in a fixed order. -/
structure Fingerprint where
  bytes : List UInt8
  members : List (List UInt8)
  deriving DecidableEq, Repr

/-- A hash of a fingerprint (FNV-1a). -/
def Fingerprint.digest (f : Fingerprint) : UInt64 :=
  let mix (h : UInt64) (b : UInt8) := (h ^^^ b.toUInt64) * 1099511628211
  f.members.foldl (fun h m => m.foldl mix h) (f.bytes.foldl mix 14695981039346656037)

/-- A number of `width` bytes, the lowest first. -/
def littleEndian : Nat → Nat → List UInt8
  | 0, _ => []
  | width + 1, n => UInt8.ofNat n :: littleEndian width (n / 256)

/-- Orders byte sequences like the words of a dictionary. -/
def bytesLe : List UInt8 → List UInt8 → Bool
  | [], _ => true
  | _ :: _, [] => false
  | a :: as, b :: bs => a < b || (a == b && bytesLe as bs)

/-- The types that an entry is made of at present. Unlike what an object was made for, its type arguments and
the types of its instance variables may change. -/
def Entry.parts : Entry → List TypeId
  | .object o => o.typeArgs ++ o.ivars.map Prod.snd
  | .pointer pointee => [pointee]
  | .union ms => ms
  | .metaclass of => [of]
  | .hierarchy base => [base]
  | _ => []

namespace Table

/-- What a component shows: its sort and, for nominal types, its name. -/
def glance (t : Table) (id : TypeId) : List UInt8 :=
  match t.get? id with
  | none => Text.bytes "?;"
  | some e =>
    Text.bytes (e.kind.name ++ ":") ++
      (match e with
        | .object o => Text.bytes o.name
        | .union ms => littleEndian 4 ms.length
        | .pointer _ | .metaclass _ | .hierarchy _ => []
        | _ => Text.bytes (t.name id)) ++ Text.bytes ";"

/-- Orders texts. -/
def textLe (a b : String) : Bool :=
  decide (a ≤ b)

/-- Whether there is an end to what a component shows: it may be declared in a type whose name has none. -/
def shows (t : Table) (id : TypeId) : Bool :=
  match t.get? id with
  | some (.struct _) | some (.const _ _ _) => (t.name? id).isSome
  | _ => true

/-- The fingerprint of a type. -/
def fingerprint (t : Table) (id : TypeId) : Fingerprint :=
  match t.get? id with
  | some (.object o) =>
    let ivars := o.ivars.mergeSort fun a b => textLe a.1 b.1
    ⟨t.glance id ++ o.typeArgs.flatMap t.glance ++
      ivars.flatMap fun (n, u) => Text.bytes n ++ t.glance u, []⟩
  | some (.pointer p) => ⟨t.glance id ++ t.glance p, []⟩
  | some (.metaclass of) => ⟨t.glance id ++ t.glance of, []⟩
  | some (.hierarchy base) => ⟨t.glance id ++ t.glance base, []⟩
  | some (.union ms) => ⟨t.glance id, (ms.map t.glance).mergeSort bytesLe⟩
  | _ => ⟨t.glance id, []⟩

/-- The fingerprint of a type, if there is an end to what it shows of the type and its components. -/
def fingerprint? (t : Table) (id : TypeId) : Option Fingerprint :=
  let components := ((t.get? id).map Entry.parts).getD []
  if (id :: components).all t.shows then some (t.fingerprint id) else none

end Table

end TypeFlow
