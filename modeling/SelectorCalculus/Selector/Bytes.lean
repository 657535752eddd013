import SelectorCalculus.Selector.Reader
/-! Selectors in bytes, where stray bytes that encode no character are read as the replacement
character. -/

namespace SelectorCalculus

open Text Token

/-- A character, or a byte that belongs to none. -/
inductive Piece where
  | character (c : Char)
  | stray (b : UInt8)

namespace Piece

def char : Piece → Char
  | character c => c
  | stray _ => '\ufffd'

def size : Piece → Nat
  | character c => c.utf8Size
  | stray _ => 1

def quote : Piece → List Char
  | character c => quoteChar c
  | stray b => '\\' :: 'x' :: hex 2 b.toNat

def first (bytes : ByteArray) (h : 0 < bytes.size) : Piece :=
  match bytes.utf8DecodeChar? 0 with
  | some c => character c
  | none => stray bytes[0]

theorem size_pos (p : Piece) : 0 < p.size := by
  cases p with
  | character c => exact c.utf8Size_pos
  | stray b => exact Nat.one_pos

def ofBytes (bytes : ByteArray) : List Piece :=
  if h : 0 < bytes.size then
    first bytes h :: ofBytes (bytes.extract (first bytes h).size bytes.size)
  else []
termination_by bytes.size
decreasing_by
  have := (first bytes h).size_pos
  rw [ByteArray.size_extract]
  omega

def totalSize (ps : List Piece) : Nat := ps.foldr (fun p n => p.size + n) 0

/-- The number of bytes before a position that is counted in the text read for the pieces. -/
def sizeBefore : List Piece → Nat → Nat
  | _, 0 => 0
  | [], n => n
  | p :: ps, n => p.size + sizeBefore ps (n - p.char.utf8Size)

end Piece

/-! ### Sizes of pieces -/

theorem byteLength_cons (c : Char) (cs : List Char) :
    byteLength (c :: cs) = c.utf8Size + byteLength cs := rfl

theorem byteLength_append (cs ds : List Char) :
    byteLength (cs ++ ds) = byteLength cs + byteLength ds := by
  induction cs with
  | nil => exact (Nat.zero_add _).symm
  | cons c cs ih => rw [List.cons_append, byteLength_cons, byteLength_cons, ih, Nat.add_assoc]

namespace Piece

theorem totalSize_cons (p : Piece) (ps : List Piece) :
    totalSize (p :: ps) = p.size + totalSize ps := rfl

theorem totalSize_ofBytes (bytes : ByteArray) : totalSize (ofBytes bytes) = bytes.size := by
  fun_induction ofBytes bytes with
  | case1 bytes h ih =>
    have hle : (first bytes h).size ≤ bytes.size := by
      unfold first
      split
      · next c hc => simpa [size] using ByteArray.le_size_of_utf8DecodeChar?_eq_some hc
      · exact h
    rw [totalSize_cons, ih, ByteArray.size_extract]
    omega
  | case2 bytes h => exact (Nat.eq_zero_of_not_pos h).symm

theorem ofBytes_utf8Encode (cs : List Char) : ofBytes cs.utf8Encode = cs.map character := by
  induction cs with
  | nil => rw [ofBytes]; rfl
  | cons c cs ih =>
    have hsize : 0 < (c :: cs).utf8Encode.size := by
      have := ByteArray.le_size_of_utf8DecodeChar?_eq_some
        (List.utf8DecodeChar?_utf8Encode_cons (l := cs) (c := c))
      have := c.utf8Size_pos
      omega
    have hfirst : first (c :: cs).utf8Encode hsize = character c := by
      simp only [first, List.utf8DecodeChar?_utf8Encode_cons]
    rw [ofBytes, dif_pos hsize, hfirst, List.map_cons, ← ih]
    have hchar : (character c).size = [c].utf8Encode.size := by
      rw [List.utf8Encode_singleton, List.size_toByteArray, String.length_utf8EncodeChar, size]
    congr 2
    rw [List.utf8Encode_cons, ByteArray.extract_append_eq_right hchar ByteArray.size_append]

theorem ofBytes_toUTF8 (text : String) : ofBytes text.toUTF8 = text.toList.map character := by
  rw [← ofBytes_utf8Encode, String.utf8Encode_toList, String.toUTF8_eq_toByteArray]

theorem map_char_ofBytes_toUTF8 (text : String) :
    String.ofList ((ofBytes text.toUTF8).map char) = text := by
  rw [ofBytes_toUTF8, List.map_map]
  exact (congrArg String.ofList (List.map_id _)).trans String.ofList_toList

theorem sizeBefore_append (before after : List Piece) :
    sizeBefore (before ++ after) (byteLength (before.map char)) = totalSize before := by
  induction before with
  | nil => cases after <;> rfl
  | cons p before ih =>
    rw [List.map_cons, byteLength_cons, List.cons_append, sizeBefore, Nat.add_sub_cancel_left, ih,
      totalSize_cons]
    have := p.char.utf8Size_pos
    omega

theorem totalSize_le_of_prefix {before ps : List Piece} (h : before <+: ps) :
    totalSize before ≤ totalSize ps := by
  obtain ⟨after, rfl⟩ := h
  induction before with
  | nil => exact Nat.zero_le _
  | cons p before ih => exact Nat.add_le_add_left ih p.size

theorem totalSize_map_character (cs : List Char) :
    totalSize (cs.map character) = byteLength cs := by
  induction cs with
  | nil => rfl
  | cons c cs ih => rw [List.map_cons, totalSize_cons, ih, byteLength_cons, size]

end Piece

/-! ### Reading -/

inductive ReadFault where
  | malformed (reason : Reason) (position : Nat)
  | runawayOperator

namespace ReadFault

/-- The message for a fault in the given bytes; a runaway operator has none. -/
def message? (bytes : ByteArray) : ReadFault → Option String
  | malformed reason position =>
    some ("selectortest: " ++ reason.message ++ " at " ++ toString position ++ " in " ++
      String.ofList ('"' :: (Piece.ofBytes bytes).flatMap Piece.quote ++ ['"']))
  | runawayOperator => none

def error (text : String) : ReadFault → ReadError
  | malformed reason position => .malformed reason position text
  | runawayOperator => .runawayOperator

end ReadFault

def readBytes (bytes : ByteArray) : Except ReadFault SelectorList :=
  let pieces := Piece.ofBytes bytes
  (readList (String.ofList (pieces.map Piece.char))).mapError fun
    | .malformed reason position _ => .malformed reason (Piece.sizeBefore pieces position)
    | _ => .runawayOperator

end SelectorCalculus
