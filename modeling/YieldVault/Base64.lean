import Mathlib.Tactic

/-! Base64, for addresses without padding at the end: three bytes are written as four symbols.
The reader also takes the symbols of plain base64, stops at padding and leaves out any other
character. -/
namespace Base64

def alphabet : List Char :=
  "ABCDEFGHIJKLMNOPQRSTUVWXYZabcdefghijklmnopqrstuvwxyz0123456789-_".toList

def symbol (n : ℕ) : Char := alphabet.getD n 'A'

def sextet (c : Char) : Option ℕ :=
  if c = '+' then some 62 else if c = '/' then some 63 else alphabet.idxOf? c

/-- The bits of the bytes, six at a time. -/
def split : List UInt8 → List ℕ
  | [] => []
  | [a] => [a.toNat/4,a.toNat%4*16]
  | [a,b] => [a.toNat/4,a.toNat%4*16+b.toNat/16,b.toNat%16*4]
  | a::b::c::rest =>
    a.toNat/4 :: (a.toNat%4*16+b.toNat/16) :: (b.toNat%16*4+c.toNat/64) :: c.toNat%64 :: split rest

/-- The bits eight at a time; what does not make a byte is dropped. -/
def join : List ℕ → List UInt8
  | x::y::z::w::rest =>
    .ofNat (x*4+y/16) :: .ofNat (y%16*16+z/4) :: .ofNat (z%4*64+w) :: join rest
  | [x,y,z] => [.ofNat (x*4+y/16),.ofNat (y%16*16+z/4)]
  | [x,y] => [.ofNat (x*4+y/16)]
  | _ => []

def encode (bytes : List UInt8) : List Char := (split bytes).map symbol

def plainSymbol (n : ℕ) : Char := if n = 62 then '+' else if n = 63 then '/' else symbol n

/-- Plain base64: the text is filled up to whole groups of four. -/
def encodePadded (bytes : List UInt8) : List Char :=
  (split bytes).map plainSymbol ++ List.replicate ((3-bytes.length%3)%3) '='

def decode (text : List Char) : List UInt8 := join ((text.takeWhile (· ≠ '=')).filterMap sextet)

example : encode [1,2,3,255] = "AQID_w".toList ∧ decode "AQID/w==".toList = [1,2,3,255] := by
  decide

theorem split_lt {bytes : List UInt8} : ∀ n ∈ split bytes, n < 64 := by
  induction bytes using split.induct with
  | case1 => simp [split]
  | case2 a =>
    have ha := a.toNat_lt
    simp [split]
    omega
  | case3 a b =>
    have ha := a.toNat_lt
    have hb := b.toNat_lt
    simp [split]
    omega
  | case4 a b c rest ih =>
    have ha := a.toNat_lt
    have hb := b.toNat_lt
    have hc := c.toNat_lt
    simp only [split,List.forall_mem_cons]
    exact ⟨by omega,by omega,by omega,by omega,ih⟩

theorem join_split (bytes : List UInt8) : join (split bytes) = bytes := by
  have hbyte : ∀ {a : UInt8} {n : ℕ}, n = a.toNat → UInt8.ofNat n = a := by
    rintro a n rfl
    exact UInt8.ofNat_toNat
  induction bytes using split.induct with
  | case1 => rfl
  | case2 a =>
    have ha := a.toNat_lt
    rw [split,join,hbyte (show _ = a.toNat by omega)]
  | case3 a b =>
    have ha := a.toNat_lt
    have hb := b.toNat_lt
    rw [split,join,hbyte (show _ = a.toNat by omega),hbyte (show _ = b.toNat by omega)]
  | case4 a b c rest ih =>
    have ha := a.toNat_lt
    have hb := b.toNat_lt
    have hc := c.toNat_lt
    rw [split,join,ih,hbyte (show _ = a.toNat by omega),hbyte (show _ = b.toNat by omega),
      hbyte (show _ = c.toNat by omega)]

theorem symbol_read (n : Fin 64) : sextet (symbol n) = some n.val ∧ symbol n ≠ '=' := by
  revert n
  decide +kernel

theorem plainSymbol_read (n : Fin 64) :
    sextet (plainSymbol n) = some n.val ∧ plainSymbol n ≠ '=' := by
  revert n
  decide +kernel

theorem read_sextets {sym : ℕ → Char}
    (hsym : ∀ n : Fin 64, sextet (sym n) = some n.val ∧ sym n ≠ '=') {ns : List ℕ}
    (hns : ∀ n ∈ ns, n < 64) (k : ℕ) :
    ((ns.map sym ++ List.replicate k '=').takeWhile (· ≠ '=')).filterMap sextet = ns := by
  induction ns with
  | nil =>
    cases k with
    | zero => rfl
    | succ k => simp [List.replicate_succ]
  | cons n ns ih =>
    obtain ⟨hlt,hrest⟩ := List.forall_mem_cons.mp hns
    obtain ⟨hn,hne⟩ := hsym ⟨n,hlt⟩
    have htail := ih hrest
    simp only [ne_eq,decide_not] at htail
    simp [hne,hn,htail]

theorem decode_symbols {sym : ℕ → Char}
    (hsym : ∀ n : Fin 64, sextet (sym n) = some n.val ∧ sym n ≠ '=') (bytes : List UInt8)
    (k : ℕ) : decode ((split bytes).map sym ++ List.replicate k '=') = bytes := by
  rw [decode,read_sextets hsym split_lt,join_split]

theorem decode_encode (bytes : List UInt8) : decode (encode bytes) = bytes := by
  have hdecode := decode_symbols symbol_read bytes 0
  rwa [List.replicate_zero,List.append_nil] at hdecode

end Base64
