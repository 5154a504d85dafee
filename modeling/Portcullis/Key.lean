/-
  Portcullis.Key — the keys under which objects are declared.

  A simple object is keyed by its kind and name, a policy by its kind and the digests of the
  keys on its two sides. A digest does not depend on the order of the keys: they are sorted
  by code point, put together without separator and hashed; ten hexadecimal digits are kept.
-/

import Portcullis.Digest.Sha256

namespace Portcullis.Key

/-- Texts in the order of their code points. -/
def sorted (keys : List String) : List String := keys.mergeSort fun a b => decide (a ≤ b)

/-- How many digits of a hash a digest keeps. -/
def digestLength : Nat := 10

def simple (kind name : String) : String := kind ++ "-" ++ name

/-- The text that a digest hashes. -/
def digestInput (keys : List String) : String := "".intercalate (sorted keys)

def digest (keys : List String) : String :=
  String.ofList ((Digest.Sha256.hex (digestInput keys).toUTF8.toList).take digestLength)

def composite (kind : String) (sources destinations : List String) : String :=
  kind ++ "-" ++ digest sources ++ "-" ++ digest destinations

/-- A key with the index of the rule that produced it. -/
def disambiguate (key : String) (index : Int) : String := key ++ "-" ++ toString index

theorem sorted_perm (keys : List String) : (sorted keys).Perm keys := List.mergeSort_perm _ _

end Portcullis.Key
