import YieldVault.Base64
import YieldVault.Backend.Runtime

/-! Access tokens. A token is three texts with dots between them: a header, a payload, and the
HMAC of both. Times are whole seconds, moments are milliseconds. -/
namespace YieldVault.Backend

open Utf16 JsonTexts

/-- What is not a number is compared with a number by `looseLess`. -/
structure AuthRuntime extends Runtime where
  stringify : Json Double → String
  hmacSha256 : List CodeUnit → List UInt8 → List UInt8
  looseLess : Option (Json Double) → ℤ → Except String Bool

structure JwtPayload where
  sub : List CodeUnit
  iat : ℤ
  exp : ℤ
  jti : List CodeUnit

section Buffers

def toBase64 (bytes : List UInt8) : List CodeUnit := units (Base64.encodePadded bytes)

def ofBase64 (text : List CodeUnit) : List UInt8 :=
  Base64.decode (text.map fun u => Char.ofNat u.val)

def replaceAll (c d : Char) (text : List CodeUnit) : List CodeUnit :=
  text.map fun u => if u = .ofNat _ c.toNat then .ofNat _ d.toNat else u

def removeAll (c : Char) (text : List CodeUnit) : List CodeUnit :=
  text.filter (· ≠ .ofNat _ c.toNat)

end Buffers

def DEFAULT_JWT_SECRET : List CodeUnit :=
  string "change-me-in-production-must-be-at-least-32-characters"

def getSecret (jwtSecret : Option (List CodeUnit)) : List CodeUnit :=
  (jwtSecret.filter (· ≠ [])).getD DEFAULT_JWT_SECRET

/-- A text is encoded as UTF-8 first. -/
def base64UrlEncode (input : List CodeUnit ⊕ List UInt8) : List CodeUnit :=
  let buf := input.elim toUTF8 id
  removeAll '=' (replaceAll '/' '_' (replaceAll '+' '-' (toBase64 buf)))

def base64UrlDecode (runtime : AuthRuntime) (input : List CodeUnit) : List CodeUnit :=
  let padded := input ++ List.replicate ((4-input.length%4)%4) (.ofNat _ '='.toNat)
  ofUTF8 runtime.toRuntime (ofBase64 (replaceAll '_' '/' (replaceAll '-' '+' padded)))

def integer (n : ℤ) : Double := ((n : ℚ) : WithTop ℚ)

def jwtHeader : Json Double :=
  record [(string "alg",.str (string "HS256")),(string "typ",.str (string "JWT"))] (by decide)

def JwtPayload.json (payload : JwtPayload) : Json Double :=
  record [(string "sub",.str payload.sub),(string "iat",.num (integer payload.iat)),
    (string "exp",.num (integer payload.exp)),(string "jti",.str payload.jti)] (by simp; decide)

section Tokens

variable (runtime : AuthRuntime) (jwtSecret : Option (List CodeUnit))

def dot : CodeUnit := .ofNat _ '.'.toNat

def signature (signingInput : List CodeUnit) : List CodeUnit :=
  let digest := runtime.hmacSha256 (getSecret jwtSecret) (toUTF8 signingInput)
  removeAll '=' (replaceAll '/' '_' (replaceAll '+' '-' (toBase64 digest)))

def signJwt (payload : JwtPayload) : List CodeUnit :=
  let header := base64UrlEncode (.inl (string (runtime.stringify jwtHeader)))
  let body := base64UrlEncode (.inl (string (runtime.stringify payload.json)))
  let signingInput := header ++ dot :: body
  signingInput ++ dot :: signature runtime jwtSecret signingInput

def expBefore (payload : Json Double) (now : ℤ) : Except String Bool :=
  match payload with
  | .null => .error "Cannot read properties of null (reading 'exp')"
  | payload => match property payload (string "exp") with
    | some (.num exp) => .ok (decide (exp < integer now))
    | exp => runtime.looseLess exp now

def timingSafeEqual (a b : List UInt8) : Except String Bool :=
  if a.length ≠ b.length then .error "Input buffers must have the same byte length"
  else .ok (decide (a = b))

/-- What `verifyJwt` does once the signature has been found to be right. -/
def readPayload (dateNow : ℤ) (body : List CodeUnit) : Except String (Json Double) :=
  match runtime.parse (base64UrlDecode runtime body) with
  | none => .error "Malformed JWT payload"
  | some payload => do
    let now := dateNow/1000
    if ← expBefore runtime payload now then throw "JWT has expired"
    return payload

def verifyJwt (dateNow : ℤ) (token : List CodeUnit) : Except String (Json Double) :=
  match token.splitOn dot with
  | [header,body,providedSig] => do
    let signingInput := header ++ dot :: body
    let expectedSig := signature runtime jwtSecret signingInput
    if ← timingSafeEqual (toUTF8 providedSig) (toUTF8 expectedSig) then
      readPayload runtime dateNow body
    else throw "Invalid JWT signature"
  | _ => .error "Malformed JWT"

end Tokens

section Decoding

theorem symbol_plain (n : Fin 64) : (Base64.symbol n).toNat < 128 ∧
    Fin.ofNat 65536 (Base64.symbol n).toNat ≠ dot ∧ (Base64.plainSymbol n).toNat < 128 := by
  revert n
  decide +kernel

/-- The signs of plain base64 that have no place in a web address are exchanged. -/
theorem replaceAll_plainSymbol (n : Fin 64) :
    replaceAll '/' '_' (replaceAll '+' '-' [.ofNat _ (Base64.plainSymbol n).toNat]) =
      [.ofNat _ (Base64.symbol n).toNat] ∧
    Fin.ofNat 65536 (Base64.symbol n).toNat ≠ .ofNat _ '='.toNat ∧
    replaceAll '_' '/' (replaceAll '-' '+' [.ofNat _ (Base64.symbol n).toNat]) =
      [.ofNat _ (Base64.plainSymbol n).toNat] := by
  revert n
  decide +kernel

theorem replaceAll_append (c d : Char) (text text' : List CodeUnit) :
    replaceAll c d (text ++ text') = replaceAll c d text ++ replaceAll c d text' :=
  List.map_append

theorem units_symbols {sym : ℕ → Char} (hsym : ∀ n : Fin 64, (sym n).toNat < 128) {ns : List ℕ}
    (hns : ∀ n ∈ ns, n < 64) :
    units (ns.map sym) = ns.map fun n => .ofNat _ (sym n).toNat := by
  have hascii : ∀ c ∈ ns.map sym, c.toNat < 0x10000 := by
    intro c hc
    obtain ⟨n,hn,rfl⟩ := List.mem_map.mp hc
    exact (hsym ⟨n,hns n hn⟩).trans (by decide)
  rw [units_ascii hascii,List.map_map]
  rfl

theorem replaceAll_plain {ns : List ℕ} (hns : ∀ n ∈ ns, n < 64) :
    replaceAll '/' '_' (replaceAll '+' '-' (units (ns.map Base64.plainSymbol))) =
      units (ns.map Base64.symbol) ∧
    replaceAll '_' '/' (replaceAll '-' '+' (units (ns.map Base64.symbol))) =
      units (ns.map Base64.plainSymbol) := by
  have hplain := fun n : Fin 64 => (symbol_plain n).2.2
  have hsymbol := fun n : Fin 64 => (symbol_plain n).1
  rw [units_symbols hplain hns,units_symbols hsymbol hns]
  simp only [replaceAll,List.map_map]
  refine ⟨List.map_congr_left fun n hn => ?_,List.map_congr_left fun n hn => ?_⟩
  · exact (List.cons.inj (replaceAll_plainSymbol ⟨n,hns n hn⟩).1).1
  · exact (List.cons.inj (replaceAll_plainSymbol ⟨n,hns n hn⟩).2.2).1

theorem units_padding (k : ℕ) :
    units (List.replicate k '=') = List.replicate k (.ofNat _ '='.toNat) := by
  rw [units_ascii fun c hc => by rw [List.eq_of_mem_replicate hc]; decide,List.map_replicate]

/-- What is left when the signs have been exchanged and the padding taken away. -/
theorem strip_toBase64 (bytes : List UInt8) :
    removeAll '=' (replaceAll '/' '_' (replaceAll '+' '-' (toBase64 bytes))) =
      units (Base64.encode bytes) := by
  have hpad : ∀ k, removeAll '=' (replaceAll '/' '_' (replaceAll '+' '-'
      (List.replicate k (.ofNat _ '='.toNat)))) = [] := by
    intro k
    simp only [replaceAll,removeAll,List.map_replicate,List.filter_eq_nil_iff]
    intro u hu
    rw [List.eq_of_mem_replicate hu]
    decide
  have hkeep : removeAll '=' (units (Base64.encode bytes)) = units (Base64.encode bytes) := by
    rw [Base64.encode,units_symbols (fun n => (symbol_plain n).1) Base64.split_lt]
    refine List.filter_eq_self.mpr fun u hu => ?_
    obtain ⟨n,hn,rfl⟩ := List.mem_map.mp hu
    exact decide_eq_true (replaceAll_plainSymbol ⟨n,Base64.split_lt n hn⟩).2.1
  rw [toBase64,Base64.encodePadded,units_append,replaceAll_append,replaceAll_append,
    (replaceAll_plain Base64.split_lt).1,units_padding,removeAll,List.filter_append]
  exact (congrArg₂ _ hkeep (hpad _)).trans (List.append_nil _)

theorem base64UrlDecode_encode (runtime : AuthRuntime) (bytes : List UInt8) :
    base64UrlDecode runtime (units (Base64.encode bytes)) = ofUTF8 runtime.toRuntime bytes := by
  have hpad : ∀ k, replaceAll '_' '/' (replaceAll '-' '+'
      (List.replicate k (.ofNat _ '='.toNat))) = List.replicate k (.ofNat _ '='.toNat) := by
    intro k
    simp only [replaceAll,List.map_replicate]
    rfl
  have hchars : ∀ k, ofBase64 (units ((Base64.split bytes).map Base64.plainSymbol) ++
      List.replicate k (.ofNat _ '='.toNat)) = bytes := by
    intro k
    rw [ofBase64,units_symbols (fun n => (symbol_plain n).2.2) Base64.split_lt,List.map_append,
      List.map_map,List.map_replicate]
    refine Eq.trans (congrArg Base64.decode (congrArg₂ _ (List.map_congr_left fun n hn => ?_) rfl))
      (Base64.decode_symbols Base64.plainSymbol_read bytes k)
    have hlt := (symbol_plain ⟨n,Base64.split_lt n hn⟩).2.2
    have hval : (Fin.ofNat 65536 (Base64.plainSymbol n).toNat).val =
        (Base64.plainSymbol n).toNat := Nat.mod_eq_of_lt (hlt.trans (by decide))
    rw [Function.comp_apply,hval,Char.ofNat_toNat]
  rw [base64UrlDecode]
  simp only [replaceAll_append,hpad]
  rw [Base64.encode,(replaceAll_plain Base64.split_lt).2,hchars]

end Decoding

section Signatures

variable {runtime : AuthRuntime} {jwtSecret : Option (List CodeUnit)}

/-- A string of three parts, the last of which is the HMAC of the first two. -/
def Signed (runtime : AuthRuntime) (jwtSecret : Option (List CodeUnit)) (token : List CodeUnit) :
    Prop :=
  ∃ header body, token.splitOn dot =
    [header,body,signature runtime jwtSecret (header ++ dot :: body)]

theorem signature_eq (signingInput : List CodeUnit) : signature runtime jwtSecret signingInput =
    units (Base64.encode (runtime.hmacSha256 (getSecret jwtSecret) (toUTF8 signingInput))) :=
  strip_toBase64 _

theorem base64UrlEncode_eq (input : List CodeUnit ⊕ List UInt8) :
    base64UrlEncode input = units (Base64.encode (input.elim toUTF8 id)) :=
  strip_toBase64 _

theorem not_mem_encode (bytes : List UInt8) : Char.ofNat 0xFFFD ∉ Base64.encode bytes := by
  intro h
  obtain ⟨n,hn,hc⟩ := List.mem_map.mp h
  have hlt := (symbol_plain ⟨n,Base64.split_lt n hn⟩).1
  rw [hc] at hlt
  exact absurd hlt (by decide)

theorem dot_not_mem (bytes : List UInt8) : dot ∉ units (Base64.encode bytes) := by
  intro h
  rw [Base64.encode,units_symbols (fun n => (symbol_plain n).1) Base64.split_lt] at h
  obtain ⟨n,hn,hc⟩ := List.mem_map.mp h
  exact (symbol_plain ⟨n,Base64.split_lt n hn⟩).2.1 hc

theorem units_dot (cs ds : List Char) : units (cs ++ '.' :: ds) = units cs ++ dot :: units ds := by
  rw [units_append,← List.singleton_append,units_append]
  rfl

theorem signature_inj
    (hhmac : Function.Injective (runtime.hmacSha256 (getSecret jwtSecret))) {bytes bytes' : List UInt8}
    {signingInput : List CodeUnit}
    (h : signature runtime jwtSecret signingInput = signature runtime jwtSecret
      (units (Base64.encode bytes) ++ dot :: units (Base64.encode bytes'))) :
    signingInput = units (Base64.encode bytes) ++ dot :: units (Base64.encode bytes') := by
  rw [signature_eq,signature_eq] at h
  have hdigest := (Function.LeftInverse.injective Base64.decode_encode) (units_injective h)
  rw [← units_dot] at hdigest ⊢
  refine toUTF8_inj ?_ (hhmac hdigest)
  rw [List.mem_append,List.mem_cons]
  rintro (h | h | h)
  · exact not_mem_encode bytes h
  · exact absurd h (by decide)
  · exact not_mem_encode bytes' h

theorem verifyJwt_parts {dateNow : ℤ} {token header body providedSig : List CodeUnit}
    (hparts : token.splitOn dot = [header,body,providedSig]) :
    (providedSig = signature runtime jwtSecret (header ++ dot :: body) ∧
      verifyJwt runtime jwtSecret dateNow token = readPayload runtime dateNow body) ∨
    providedSig ≠ signature runtime jwtSecret (header ++ dot :: body) ∧
      ∃ e, verifyJwt runtime jwtSecret dateNow token = .error e := by
  rw [verifyJwt,hparts]
  by_cases hsig : providedSig = signature runtime jwtSecret (header ++ dot :: body)
  · refine .inl ⟨hsig,?_⟩
    simp only [← hsig,timingSafeEqual,ne_eq,not_true_eq_false,if_false,decide_true]
    rfl
  · refine .inr ⟨hsig,?_⟩
    have hbytes : toUTF8 providedSig ≠
        toUTF8 (signature runtime jwtSecret (header ++ dot :: body)) := by
      intro h
      rw [signature_eq] at h hsig
      exact hsig (toUTF8_inj (not_mem_encode _) h)
    simp only [timingSafeEqual]
    split_ifs with hlength
    · exact ⟨_,rfl⟩
    · exact ⟨"Invalid JWT signature",by rw [decide_eq_false hbytes]; rfl⟩

theorem signed_of_verifyJwt {dateNow : ℤ} {token : List CodeUnit} {payload : Json Double}
    (h : verifyJwt runtime jwtSecret dateNow token = .ok payload) :
    Signed runtime jwtSecret token := by
  obtain ⟨header,body,sig,hparts⟩ : ∃ header body sig,
      token.splitOn dot = [header,body,sig] := by
    unfold verifyJwt at h
    split at h
    · exact ⟨_,_,_,‹_›⟩
    · cases h
  rcases verifyJwt_parts hparts with ⟨hsig,-⟩ | ⟨-,e,he⟩
  · exact ⟨header,body,hsig ▸ hparts⟩
  · rw [he] at h
    cases h

end Signatures

section Changes

variable {runtime : AuthRuntime} {jwtSecret : Option (List CodeUnit)}

theorem splitOn_signJwt (runtime : AuthRuntime) (jwtSecret : Option (List CodeUnit))
    (payload : JwtPayload) :
    (signJwt runtime jwtSecret payload).splitOn dot =
      [base64UrlEncode (.inl (string (runtime.stringify jwtHeader))),
        base64UrlEncode (.inl (string (runtime.stringify payload.json))),
        signature runtime jwtSecret (base64UrlEncode (.inl (string (runtime.stringify jwtHeader))) ++
          dot :: base64UrlEncode (.inl (string (runtime.stringify payload.json))))] := by
  have hnot : ∀ input, dot ∉ base64UrlEncode input := by
    intro input
    rw [base64UrlEncode_eq]
    exact dot_not_mem _
  have hsig : ∀ text, dot ∉ signature runtime jwtSecret text := by
    intro text
    rw [signature_eq]
    exact dot_not_mem _
  rw [signJwt,List.append_assoc,List.cons_append,List.splitOn_append_cons_self_of_not_mem (hnot _),
    List.splitOn_append_cons_self_of_not_mem (hnot _),List.splitOn_eq_singleton (hsig _)]

theorem integer_lt {m n : ℤ} : integer m < integer n ↔ m < n := by
  simp [integer]

theorem verifyJwt_signJwt {payload : JwtPayload}
    (hjson : runtime.parse (string (runtime.stringify payload.json)) = some payload.json)
    (dateNow : ℤ) : verifyJwt runtime jwtSecret dateNow (signJwt runtime jwtSecret payload) =
      if dateNow/1000 ≤ payload.exp then .ok payload.json else .error "JWT has expired" := by
  have hread : runtime.parse (base64UrlDecode runtime
      (base64UrlEncode (.inl (string (runtime.stringify payload.json))))) = some payload.json := by
    rw [base64UrlEncode_eq,base64UrlDecode_encode,Sum.elim_inl,toUTF8_string,ofUTF8_text,hjson]
  have hexp : expBefore runtime payload.json (dateNow/1000) =
      .ok (decide (payload.exp < dateNow/1000)) := by
    have hread : expBefore runtime payload.json (dateNow/1000) =
        .ok (decide (integer payload.exp < integer (dateNow/1000))) := rfl
    simpa only [integer_lt] using hread
  rcases verifyJwt_parts (splitOn_signJwt runtime jwtSecret payload) with ⟨-,h⟩ | ⟨hne,-⟩
  · rw [h,readPayload,hread]
    simp only [hexp]
    by_cases hle : dateNow/1000 ≤ payload.exp
    · rw [if_pos hle,decide_eq_false (not_lt.mpr hle)]
      rfl
    · rw [if_neg hle,decide_eq_true (not_le.mp hle)]
      rfl
  · exact absurd rfl hne

/-- The parts when one character has been exchanged, and when a dot has been put for it. -/
theorem splitOn_exchange (before after : List CodeUnit) : ∃ ps p q qs,
    (∀ c, c ≠ dot → (before ++ c :: after).splitOn dot = ps ++ (p ++ c :: q) :: qs) ∧
      (before ++ dot :: after).splitOn dot = ps ++ p :: q :: qs := by
  obtain ⟨q,qs,hafter⟩ := List.exists_cons_of_ne_nil (List.splitOn_ne_nil dot after)
  have hstep : ∀ c rest, (c :: rest).splitOn dot =
      if c = dot then [] :: rest.splitOn dot else (rest.splitOn dot).modifyHead (List.cons c) := by
    intro c rest
    simpa using List.splitOn_cons_eq_if_modifyHead c rest
  induction before with
  | nil =>
    refine ⟨[],[],q,qs,?_,?_⟩
    · intro c hc
      rw [List.nil_append,hstep,if_neg hc,hafter]
      rfl
    · rw [List.nil_append,hstep,if_pos rfl,hafter]
      rfl
  | cons x before ih =>
    obtain ⟨ps,p,q,qs,hother,hdot⟩ := ih
    by_cases hx : x = dot
    · refine ⟨[] :: ps,p,q,qs,fun c hc => ?_,?_⟩
      · rw [List.cons_append,hstep,if_pos hx,hother c hc,List.cons_append]
      · rw [List.cons_append,hstep,if_pos hx,hdot,List.cons_append]
    · cases ps with
      | nil =>
        refine ⟨[],x :: p,q,qs,fun c hc => ?_,?_⟩
        · rw [List.cons_append,hstep,if_neg hx,hother c hc]
          rfl
        · rw [List.cons_append,hstep,if_neg hx,hdot]
          rfl
      | cons p' ps =>
        refine ⟨(x :: p') :: ps,p,q,qs,fun c hc => ?_,?_⟩
        · rw [List.cons_append,hstep,if_neg hx,hother c hc]
          rfl
        · rw [List.cons_append,hstep,if_neg hx,hdot]
          rfl

/-- A signed token that has the signature of an issued one, or its header and payload, is that
token. -/
theorem eq_signJwt_of_part
    (hhmac : Function.Injective (runtime.hmacSha256 (getSecret jwtSecret))) {payload : JwtPayload}
    {header body sig header' body' sig' token : List CodeUnit}
    (hissued : (signJwt runtime jwtSecret payload).splitOn dot = [header,body,sig])
    (hparts : token.splitOn dot = [header',body',sig']) (hsigned : Signed runtime jwtSecret token)
    (hpart : header' = header ∧ body' = body ∨ sig' = sig) :
    token = signJwt runtime jwtSecret payload := by
  obtain ⟨h,b,hsplit⟩ := hsigned
  rw [hparts] at hsplit
  obtain ⟨rfl,rfl,hsig',-⟩ : header' = h ∧ body' = b ∧ sig' = _ ∧ True := by simpa using hsplit
  have hsame : header' ++ dot :: body' = header ++ dot :: body ∧ sig' = sig := by
    obtain ⟨bytes,bytes',hencoded⟩ : ∃ bytes bytes', (signJwt runtime jwtSecret payload).splitOn dot =
        [units (Base64.encode bytes),units (Base64.encode bytes'),signature runtime jwtSecret
          (units (Base64.encode bytes) ++ dot :: units (Base64.encode bytes'))] :=
      ⟨_,_,by rw [splitOn_signJwt,base64UrlEncode_eq,base64UrlEncode_eq]⟩
    rw [hissued] at hencoded
    obtain ⟨rfl,rfl,hsig⟩ : header = units (Base64.encode bytes) ∧
        body = units (Base64.encode bytes') ∧ sig = _ := by simpa using hencoded
    rcases hpart with ⟨rfl,rfl⟩ | rfl
    · exact ⟨rfl,hsig'.trans hsig.symm⟩
    · exact ⟨signature_inj hhmac (hsig'.symm.trans hsig),rfl⟩
  have htext : ∀ {text x y z : List CodeUnit}, text.splitOn dot = [x,y,z] →
      text = (x ++ dot :: y) ++ dot :: z := by
    intro text x y z hsplit
    have hjoin : [dot].intercalate (text.splitOn dot) = text := List.intercalate_splitOn dot
    rw [← hjoin,hsplit]
    simp
  rw [htext hparts,htext hissued,hsame.1,hsame.2]

theorem not_signed_exchanged
    (hhmac : Function.Injective (runtime.hmacSha256 (getSecret jwtSecret))) {payload : JwtPayload}
    {before after : List CodeUnit} {c c' : CodeUnit}
    (htoken : signJwt runtime jwtSecret payload = before ++ c :: after) (hne : c' ≠ c) :
    ¬Signed runtime jwtSecret (before ++ c' :: after) := by
  intro hsigned
  obtain ⟨ps,p,q,qs,hother,hdot⟩ := splitOn_exchange before after
  have hissued := splitOn_signJwt runtime jwtSecret payload
  generalize base64UrlEncode (.inl (string (runtime.stringify jwtHeader))) = header at hissued
  generalize base64UrlEncode (.inl (string (runtime.stringify payload.json))) = body at hissued
  generalize signature runtime jwtSecret (header ++ dot :: body) = sig at hissued
  obtain ⟨header',body',hparts⟩ := id hsigned
  generalize signature runtime jwtSecret (header' ++ dot :: body') = sig' at hparts
  have hcount : c ≠ dot ∧ c' ≠ dot := by
    have hlength : ((before ++ c :: after).splitOn dot).length =
        ((before ++ c' :: after).splitOn dot).length := by
      rw [← htoken,hissued,hparts]
      rfl
    refine ⟨?_,?_⟩
    · rintro rfl
      rw [hdot,hother c' hne] at hlength
      simp at hlength
    · rintro rfl
      rw [hdot,hother c hne.symm] at hlength
      simp at hlength
  have hpart : header' = header ∧ body' = body ∨ sig' = sig := by
    rw [htoken,hother c hcount.1] at hissued
    rw [hother c' hcount.2] at hparts
    match ps with
    | [] => exact .inr (by simp_all)
    | [_] => exact .inr (by simp_all)
    | [_,_] => exact .inl (by simp_all)
    | _::_::_::_ => simp at hissued
  have hsame := eq_signJwt_of_part hhmac hissued hparts hsigned hpart
  rw [htoken] at hsame
  exact hne (by simpa using hsame)

end Changes

section RoundTrip

theorem refused_of_not_signed {runtime : AuthRuntime} {jwtSecret : Option (List CodeUnit)}
    {token : List CodeUnit} (h : ¬Signed runtime jwtSecret token) (dateNow : ℤ) :
    ∃ e, verifyJwt runtime jwtSecret dateNow token = .error e := by
  cases hverify : verifyJwt runtime jwtSecret dateNow token with
  | ok payload => exact absurd (signed_of_verifyJwt hverify) h
  | error e => exact ⟨e,rfl⟩

/-- A token gives its payload back until it expires. Texts come back from base64. Only signed
strings are accepted, so that neither one character of a token can be exchanged, nor its header
and payload without its signature, nor its signature alone. -/
theorem accessTokens_roundTrip (runtime : AuthRuntime) (jwtSecret : Option (List CodeUnit))
    (hhmac : Function.Injective (runtime.hmacSha256 (getSecret jwtSecret))) :
    (∀ payload : JwtPayload,
      runtime.parse (string (runtime.stringify payload.json)) = some payload.json →
      ∀ dateNow, verifyJwt runtime jwtSecret dateNow (signJwt runtime jwtSecret payload) =
        if dateNow/1000 ≤ payload.exp then .ok payload.json else .error "JWT has expired") ∧
    (∀ text : String,
      base64UrlDecode runtime (base64UrlEncode (.inr text.toUTF8.data.toList)) = string text ∧
      base64UrlDecode runtime (base64UrlEncode (.inl (string text))) = string text) ∧
    (∀ token dateNow payload, verifyJwt runtime jwtSecret dateNow token = .ok payload →
      Signed runtime jwtSecret token) ∧
    (∀ payload before after c c', signJwt runtime jwtSecret payload = before ++ c :: after →
      c' ≠ c → ∀ dateNow, ∃ e, verifyJwt runtime jwtSecret dateNow (before ++ c' :: after) =
        .error e) ∧
    ∀ payload header body sig token header' body' sig',
      (signJwt runtime jwtSecret payload).splitOn dot = [header,body,sig] →
      token.splitOn dot = [header',body',sig'] → token ≠ signJwt runtime jwtSecret payload →
      (header' = header ∧ body' = body ∨ sig' = sig) →
      ∀ dateNow, ∃ e, verifyJwt runtime jwtSecret dateNow token = .error e := by
  refine ⟨fun payload hjson => verifyJwt_signJwt hjson,fun text => ?_,
    fun token dateNow payload => signed_of_verifyJwt,?_,?_⟩
  · rw [base64UrlEncode_eq,base64UrlEncode_eq,base64UrlDecode_encode,base64UrlDecode_encode,
      Sum.elim_inl,Sum.elim_inr,toUTF8_string]
    exact ⟨ofUTF8_text _ text,ofUTF8_text _ text⟩
  · intro payload before after c c' htoken hne
    exact refused_of_not_signed (not_signed_exchanged hhmac htoken hne)
  · intro payload header body sig token header' body' sig' hissued hparts hne hpart
    refine refused_of_not_signed fun hsigned => hne ?_
    exact eq_signJwt_of_part hhmac hissued hparts hsigned hpart

def alicePayload : JwtPayload := ⟨string "GALICE",1700000000,1700000900,string "0"⟩

def alicePayloadText : String :=
  "\x7b\"sub\":\"GALICE\",\"iat\":1700000000,\"exp\":1700000900,\"jti\":\"0\"\x7d"

def aliceSigningInput : String :=
  "eyJhbGciOiJIUzI1NiIsInR5cCI6IkpXVCJ9.eyJzdWIiOiJHQUxJQ0UiLCJpYXQiOjE3MDAwMDAwMDAsImV4cCI6MTcwMDAwMDkwMCwianRpIjoiMCJ9"

/-- The digest is known for one text under one secret; those of others only differ from it. -/
def aliceRuntime : AuthRuntime where
  hmacSha256 := fun secret message =>
    if secret = DEFAULT_JWT_SECRET ∧ message = toUTF8 (string aliceSigningInput) then
      [65,75,200,239,190,182,37,183,129,196,123,33,10,232,163,103,219,254,24,77,26,184,133,65,
        43,26,33,136,238,128,207,247]
    else 0 :: message
  stringify := fun value => match property value (string "alg") with
    | some _ => "\x7b\"alg\":\"HS256\",\"typ\":\"JWT\"\x7d"
    | none => alicePayloadText
  parse := fun text => if text = string alicePayloadText then some alicePayload.json else none
  repaired := fun _ => [0xFFFD]
  looseLess := fun _ _ => .ok false

theorem aliceRuntime_injective (secret : List CodeUnit) :
    Function.Injective (aliceRuntime.hmacSha256 secret) := by
  intro message message' h
  simp only [aliceRuntime] at h
  split_ifs at h with hknown hknown' hknown'
  · exact hknown.2.trans hknown'.2.symm
  · exact absurd (List.cons.inj h).1 (by decide)
  · exact absurd (List.cons.inj h).1 (by decide)
  · exact (List.cons.inj h).2

theorem accessTokens_roundTrip_alice :
    verifyJwt aliceRuntime none 1700000900999 (signJwt aliceRuntime none alicePayload) =
      .ok alicePayload.json ∧
    verifyJwt aliceRuntime none 1700000901000 (signJwt aliceRuntime none alicePayload) =
      .error "JWT has expired" := by
  have hjson : aliceRuntime.parse (string (aliceRuntime.stringify alicePayload.json)) =
      some alicePayload.json := by
    have htext : aliceRuntime.stringify alicePayload.json = alicePayloadText := rfl
    have hparse : ∀ text, aliceRuntime.parse text =
        if text = string alicePayloadText then some alicePayload.json else none := fun _ => rfl
    rw [htext,hparse,if_pos rfl]
  have hverify := (accessTokens_roundTrip aliceRuntime none (aliceRuntime_injective _)).1
    alicePayload hjson
  refine ⟨(hverify _).trans (if_pos ?_),(hverify _).trans (if_neg ?_)⟩
  · decide
  · decide

end RoundTrip

end YieldVault.Backend
