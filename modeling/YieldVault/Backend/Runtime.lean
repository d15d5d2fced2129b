import YieldVault.JsonTexts

/-! What the server takes from its runtime: strings, their bytes, and JSON. Strings are code
units. -/
namespace YieldVault.Backend

open Utf16 JsonTexts

/-- A number of the runtime that is not NaN. -/
abbrev Double := WithBot (WithTop ℚ)

def string (text : String) : List CodeUnit := units text.toList

/-- `JSON.parse`, and the text of bytes that are not UTF-8. -/
structure Runtime where
  parse : List CodeUnit → Option (Json Double)
  repaired : List UInt8 → List CodeUnit

def toUTF8 (text : List CodeUnit) : List UInt8 :=
  (String.ofList (wellFormed text)).toUTF8.data.toList

def ofUTF8 (runtime : Runtime) (bytes : List UInt8) : List CodeUnit :=
  match String.fromUTF8? ⟨bytes.toArray⟩ with
  | some text => string text
  | none => runtime.repaired bytes

/-- A record of the fields in the order in which they are written. -/
def record (fields : List (List CodeUnit × Json Double)) (distinct : (fields.map Prod.fst).Nodup) :
    Json Double :=
  .obj (fields.map Prod.fst) distinct fun k => (fields.lookup k.1).getD .null

def property (value : Json Double) (key : List CodeUnit) : Option (Json Double) :=
  match value with
  | .obj keys _ value => if h : key ∈ keys then some (value ⟨key,h⟩) else none
  | _ => none

theorem toUTF8_string (text : String) : toUTF8 (string text) = text.toUTF8.data.toList := by
  rw [toUTF8,string,wellFormed_units,String.ofList_toList]

theorem ofUTF8_text (runtime : Runtime) (text : String) :
    ofUTF8 runtime text.toUTF8.data.toList = string text := by
  have hread : String.fromUTF8? ⟨text.toUTF8.data.toList.toArray⟩ = some text := by
    rw [Array.toArray_toList,String.fromUTF8?]
    exact dif_pos text.isValidUTF8
  rw [ofUTF8,hread]

/-- The bytes tell a text in which no replacement character stands from any other. -/
theorem toUTF8_inj {cs : List Char} (hcs : Char.ofNat 0xFFFD ∉ cs) {text : List CodeUnit}
    (h : toUTF8 text = toUTF8 (units cs)) : text = units cs := by
  rw [toUTF8,toUTF8,Array.toList_inj] at h
  have hbytes := String.toByteArray_inj.mp (ByteArray.ext h)
  rw [wellFormed_units] at hbytes
  exact eq_units_of_wellFormed (String.ofList_injective hbytes) hcs

theorem string_injective : Function.Injective string := by
  intro text text' h
  exact String.toList_injective (units_injective h)

end YieldVault.Backend
