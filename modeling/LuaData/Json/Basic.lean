import LuaData.Number.Double

/-!
# JSON values

A JSON number is an integer of at most 64 bits or a finite double. The members of an object are kept
in the order of their keys; a later member replaces an earlier one with the same key.
-/

namespace LuaData

/-- A JSON value. -/
inductive Json where
  | null
  | bool (b : Bool)
  | int (i : Int)
  | float (x : Double)
  | string (text : List Char)
  | array (items : List Json)
  | object (members : List (List Char × Json))

namespace Json

/-- The order of texts by code points, which is also the order of their UTF-8 bytes. -/
def keyLt : List Char → List Char → Bool
  | _, [] => false
  | [], _ :: _ => true
  | a :: as, b :: bs => decide (a < b) || (a == b && keyLt as bs)

/-- Add a member to an object, in place of one with the same key. -/
def insertMember (key : List Char) (value : Json) :
    List (List Char × Json) → List (List Char × Json)
  | [] => [(key, value)]
  | (k, v) :: rest =>
    if key == k then (key, value) :: rest
    else if keyLt key k then (key, value) :: (k, v) :: rest
    else (k, v) :: insertMember key value rest

/-- An object with the given members, of which later ones replace earlier ones. -/
def ofMembers (members : List (List Char × Json)) : List (List Char × Json) :=
  members.foldl (fun object (key, value) ↦ insertMember key value object) []

end Json

end LuaData
