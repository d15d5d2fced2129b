import Mathlib.Data.String.Basic
import YieldVault.Base64
import YieldVault.Calendar
import YieldVault.Paging
import YieldVault.Backend.Runtime
import YieldVault.Backend.Webhooks

/-! The list of webhook deliveries, which is read page by page while new ones arrive. A cursor
names the last delivery that was returned. -/
namespace YieldVault.Backend

open Utf16 JsonTexts

/-- A printable ASCII character that stands for itself in every text. -/
def PlainChar (c : Char) : Prop := 32 ≤ c.toNat ∧ c.toNat < 127 ∧ c ≠ '"' ∧ c ≠ '\\'

instance (c : Char) : Decidable (PlainChar c) := inferInstanceAs (Decidable (_ ∧ _))

def Plain (text : String) : Prop := ∀ c ∈ text.toList, PlainChar c

/-- The order of texts in some locale. -/
structure Collation where
  localeCompare : String → String → Ordering
  swap : ∀ a b, localeCompare b a = (localeCompare a b).swap
  trans : ∀ a b c, localeCompare a b ≠ .gt → localeCompare b c ≠ .gt → localeCompare a c ≠ .gt
  eq_of_plain : ∀ a b, Plain a → Plain b → localeCompare a b = .eq → a = b

def hexByte (b : UInt8) : List Char := [Nat.digitChar (b.toNat/16),Nat.digitChar (b.toNat%16)]

def deliveryId (random : Fin 8 → UInt8) : String :=
  String.ofList ("whd_".toList ++ (List.ofFn random).flatMap hexByte)

/-- A delivery is given its id and the time of its creation when it is made. -/
structure WebhookDeliveryRecord where
  id : String
  endpointId : String
  endpointUrl : String
  eventType : TransactionEventType
  status : WebhookDeliveryStatus
  attempts : ℕ
  createdAt : String
  updatedAt : String
  deliveredAt : Option String := none
  lastError : Option String := none
  id_made : ∃ random, id = deliveryId random
  createdAt_made : ∃ moment, createdAt = Calendar.toISOString moment

structure WebhookDeliveryPage where
  deliveries : List WebhookDeliveryRecord
  nextCursor : Option String
  hasNextPage : Bool

section Cursors

/-- `JSON.stringify` of the record that names a delivery. -/
def cursorText (createdAt id : String) : String :=
  String.ofList ("\x7b\"createdAt\":".toList ++ quote (string createdAt) ++
    ",\"id\":".toList ++ quote (string id) ++ "\x7d".toList)

def cursorPayload (createdAt id : String) : Json Double :=
  record [(string "createdAt",.str (string createdAt)),(string "id",.str (string id))] (by
    simp only [List.map_cons,List.map_nil]
    decide)

def encodeDeliveryCursor (delivery : WebhookDeliveryRecord) : String :=
  String.ofList (Base64.encode (cursorText delivery.createdAt delivery.id).toUTF8.data.toList)

def isTruthy : Json Double → Bool
  | .null => false
  | .bool b => b
  | .num n => decide (n ≠ 0)
  | .str text => decide (text ≠ [])
  | .arr _ _ => true
  | .obj _ _ _ => true

def decodeDeliveryCursor (runtime : Runtime) (cursor : String) :
    Except String (Json Double × Json Double) :=
  match runtime.parse (ofUTF8 runtime (Base64.decode cursor.toList)) with
  | none => .error "Invalid or expired cursor"
  | some payload =>
    match property payload (string "createdAt"),property payload (string "id") with
    | some createdAt,some id =>
      if isTruthy createdAt && isTruthy id then .ok (createdAt,id)
      else .error "Invalid or expired cursor"
    | _,_ => .error "Invalid or expired cursor"

end Cursors

section Listing

variable (runtime : Runtime) (collation : Collation)

def compareDeliveries (a b : WebhookDeliveryRecord) : Ordering :=
  match collation.localeCompare b.createdAt a.createdAt with
  | .eq => collation.localeCompare b.id a.id
  | createdComparison => createdComparison

def sortDeliveries (deliveries : List WebhookDeliveryRecord) : List WebhookDeliveryRecord :=
  deliveries.mergeSort fun a b => decide (compareDeliveries collation a b ≠ .gt)

def isText (value : Json Double) (text : String) : Bool :=
  match value with
  | .str units => decide (units = string text)
  | _ => false

def startIndex (sorted : List WebhookDeliveryRecord) (cursor : Option String) :
    Except String ℕ :=
  match cursor.filter (· ≠ "") with
  | none => .ok 0
  | some cursor => do
    let (createdAt,id) ← decodeDeliveryCursor runtime cursor
    match sorted.findIdx? fun delivery =>
        isText createdAt delivery.createdAt && isText id delivery.id with
    | none => throw "Invalid or expired cursor"
    | some cursorIndex => return cursorIndex+1

def normalizedLimit (limit : Option ℤ) : ℕ := (max 1 (min (limit.getD 100) 500)).toNat

def listWebhookDeliveryPage (deliveries : List WebhookDeliveryRecord) (limit : Option ℤ)
    (cursor : Option String) : Except String WebhookDeliveryPage := do
  let sorted := sortDeliveries collation deliveries
  let start ← startIndex runtime sorted cursor
  let pageItems := (sorted.drop start).take (normalizedLimit limit+1)
  let hasNextPage := decide (normalizedLimit limit < pageItems.length)
  let deliveriesPage := if hasNextPage then pageItems.take (normalizedLimit limit) else pageItems
  return ⟨deliveriesPage,
    if hasNextPage then deliveriesPage.getLast?.map encodeDeliveryCursor else none,hasNextPage⟩

/-- A delivery is made that is not earlier than the others, or something else of one changes. -/
inductive DeliveryStep : List WebhookDeliveryRecord → List WebhookDeliveryRecord → Prop
  | arrives {deliveries : List WebhookDeliveryRecord} (delivery : WebhookDeliveryRecord)
      (hid : ∀ old ∈ deliveries, old.id ≠ delivery.id)
      (hlate : ∀ old ∈ deliveries,
        collation.localeCompare delivery.createdAt old.createdAt ≠ .lt) :
      DeliveryStep deliveries (delivery :: deliveries)
  | updated {before after : List WebhookDeliveryRecord} (old new : WebhookDeliveryRecord)
      (hid : new.id = old.id) (hcreated : new.createdAt = old.createdAt) :
      DeliveryStep (before ++ old :: after) (before ++ new :: after)

/-- A client follows the cursors until there is none; each request finds a list of its own. -/
inductive Follows : Option String → List (List WebhookDeliveryRecord × Option ℤ) →
    List (List WebhookDeliveryRecord) → Prop
  | last {cursor : Option String} {deliveries : List WebhookDeliveryRecord} {limit : Option ℤ}
      {page : WebhookDeliveryPage}
      (hpage : listWebhookDeliveryPage runtime collation deliveries limit cursor = .ok page)
      (h : page.nextCursor = none) : Follows cursor [(deliveries,limit)] [page.deliveries]
  | more {cursor : Option String} {next : String} {deliveries : List WebhookDeliveryRecord}
      {limit : Option ℤ} {page : WebhookDeliveryPage}
      {requests : List (List WebhookDeliveryRecord × Option ℤ)}
      {pages : List (List WebhookDeliveryRecord)}
      (hpage : listWebhookDeliveryPage runtime collation deliveries limit cursor = .ok page)
      (h : page.nextCursor = some next) (rest : Follows (some next) requests pages) :
      Follows cursor ((deliveries,limit) :: requests) (page.deliveries :: pages)

/-- A delivery of which the other comes later in the list. -/
def Above (a b : WebhookDeliveryRecord) : Prop :=
  collation.localeCompare b.createdAt a.createdAt = .lt ∨
    b.createdAt = a.createdAt ∧ collation.localeCompare b.id a.id = .lt

end Listing

section Texts

theorem plain_deliveryId (random : Fin 8 → UInt8) : Plain (deliveryId random) := by
  have hdigit : ∀ n : Fin 16, PlainChar (Nat.digitChar n) := by decide
  intro c hc
  rw [deliveryId,String.toList_ofList,List.mem_append,List.mem_flatMap] at hc
  rcases hc with hc | ⟨b,-,hc⟩
  · have hall : "whd_".toList.all (decide <| PlainChar ·) := by decide
    exact of_decide_eq_true (List.all_eq_true.mp hall c hc)
  · have hb := b.toNat_lt
    rw [hexByte,List.mem_cons,List.mem_singleton] at hc
    rcases hc with rfl | rfl
    · exact hdigit ⟨b.toNat/16,by omega⟩
    · exact hdigit ⟨b.toNat%16,by omega⟩

theorem plain_toISOString (moment : ℤ) : Plain (Calendar.toISOString moment) := by
  have hpadded : ∀ width n, ∀ c ∈ Texts.padded width n, PlainChar c := by
    intro width n c hc
    have hdigit := List.all_eq_true.mp (Calendar.all_isDigit_padded width n) c hc
    simp only [Calendar.isDigit,Bool.and_eq_true,decide_eq_true_eq] at hdigit
    have hlow : '0'.toNat ≤ c.toNat := hdigit.1
    have hhigh : c.toNat ≤ '9'.toNat := hdigit.2
    have hzero : '0'.toNat = 48 := rfl
    have hnine : '9'.toNat = 57 := rfl
    refine ⟨by omega,by omega,?_,?_⟩
    · rintro rfl
      exact absurd hlow (by decide)
    · rintro rfl
      exact absurd hhigh (by decide)
  have hyear : ∀ year, ∀ c ∈ Calendar.isoYear year, PlainChar c := by
    intro year
    unfold Calendar.isoYear
    split_ifs
    · exact hpadded _ _
    · exact List.forall_mem_cons.mpr ⟨by decide,hpadded _ _⟩
    · exact List.forall_mem_cons.mpr ⟨by decide,hpadded _ _⟩
  rw [Plain,Calendar.toList_toISOString,Calendar.isoDate,Calendar.isoTime]
  simp only [List.forall_mem_append,List.forall_mem_cons]
  refine ⟨⟨⟨hyear _,?_,hpadded _ _⟩,?_,hpadded _ _⟩,⟨⟨⟨⟨?_,hpadded _ _⟩,?_,hpadded _ _⟩,?_,
    hpadded _ _⟩,?_,hpadded _ _⟩,?_,by simp⟩
  all_goals decide

theorem ne_empty_of_made {delivery : WebhookDeliveryRecord} :
    delivery.createdAt ≠ "" ∧ delivery.id ≠ "" := by
  obtain ⟨moment,hmoment⟩ := delivery.createdAt_made
  obtain ⟨random,hrandom⟩ := delivery.id_made
  refine ⟨fun h => ?_,fun h => ?_⟩
  · have hlist := congrArg String.toList (hmoment.symm.trans h)
    rw [Calendar.toList_toISOString,Calendar.isoTime] at hlist
    simp at hlist
  · have hlist := congrArg String.toList (hrandom.symm.trans h)
    rw [deliveryId,String.toList_ofList] at hlist
    simp at hlist

end Texts

section Cursors

theorem cursorPayload_fields (createdAt id : String) :
    property (cursorPayload createdAt id) (string "createdAt") = some (.str (string createdAt)) ∧
      property (cursorPayload createdAt id) (string "id") = some (.str (string id)) :=
  ⟨rfl,rfl⟩

theorem isTruthy_text {text : String} (h : text ≠ "") : isTruthy (.str (string text)) = true := by
  refine decide_eq_true fun hnil => h ?_
  exact string_injective hnil

theorem decodeDeliveryCursor_encode {runtime : Runtime} {delivery : WebhookDeliveryRecord}
    (hjson : runtime.parse (string (cursorText delivery.createdAt delivery.id)) =
      some (cursorPayload delivery.createdAt delivery.id)) :
    decodeDeliveryCursor runtime (encodeDeliveryCursor delivery) =
      .ok (.str (string delivery.createdAt),.str (string delivery.id)) := by
  obtain ⟨hcreated,hid⟩ := cursorPayload_fields delivery.createdAt delivery.id
  rw [decodeDeliveryCursor,encodeDeliveryCursor,String.toList_ofList,Base64.decode_encode,
    ofUTF8_text,hjson]
  simp only [hcreated,hid,isTruthy_text ne_empty_of_made.1,isTruthy_text ne_empty_of_made.2,
    Bool.and_self,if_true]

theorem cursorText_ne_empty (createdAt id : String) : cursorText createdAt id ≠ "" := by
  have hne : (cursorText createdAt id).toList ≠ [] := by
    unfold cursorText
    rw [String.toList_ofList]
    exact List.append_ne_nil_of_right_ne_nil _ (by decide)
  intro h
  rw [h] at hne
  exact hne rfl

theorem encodeDeliveryCursor_ne_empty (delivery : WebhookDeliveryRecord) :
    encodeDeliveryCursor delivery ≠ "" := by
  intro h
  refine cursorText_ne_empty delivery.createdAt delivery.id ?_
  unfold encodeDeliveryCursor at h
  generalize cursorText delivery.createdAt delivery.id = text at h
  have hchars : Base64.encode text.toUTF8.data.toList = [] := by
    rw [← String.toList_ofList (l := Base64.encode text.toUTF8.data.toList),h]
    rfl
  have hbytes := Base64.decode_encode text.toUTF8.data.toList
  rw [hchars] at hbytes
  exact String.toByteArray_inj.mp (ByteArray.ext (Array.toList_inj.mp hbytes.symm))

end Cursors

section Order

variable (collation : Collation)

/-- A text that the order tells from others. -/
@[ext] structure Collation.Text (collation : Collation) where
  text : String
  plain : Plain text

theorem Collation.refl (a : String) : collation.localeCompare a a = .eq := by
  have h := collation.swap a a
  cases hc : collation.localeCompare a a with
  | eq => rfl
  | lt => rw [hc] at h; cases h
  | gt => rw [hc] at h; cases h

instance : LinearOrder collation.Text where
  le a b := collation.localeCompare a.text b.text ≠ .gt
  le_refl a := by rw [collation.refl]; decide
  le_trans a b c := collation.trans a.text b.text c.text
  le_antisymm a b hab hba := by
    refine Collation.Text.ext (collation.eq_of_plain _ _ a.plain b.plain ?_)
    rw [collation.swap a.text b.text] at hba
    cases hc : collation.localeCompare a.text b.text with
    | eq => rfl
    | lt => rw [hc] at hba; exact absurd rfl hba
    | gt => exact absurd hc hab
  le_total a b := by
    rw [collation.swap a.text b.text]
    cases collation.localeCompare a.text b.text <;> simp
  toDecidableLE := fun _ _ => inferInstanceAs (Decidable (_ ≠ _))

theorem Collation.text_lt {a b : collation.Text} :
    a < b ↔ collation.localeCompare a.text b.text = .lt := by
  have hle : b ≤ a ↔ collation.localeCompare b.text a.text ≠ .gt := Iff.rfl
  rw [← not_le,hle,collation.swap a.text b.text]
  cases collation.localeCompare a.text b.text <;> simp

theorem Collation.text_eq {a b : collation.Text} :
    a = b ↔ collation.localeCompare a.text b.text = .eq := by
  constructor
  · rintro rfl
    exact collation.refl _
  · intro h
    exact Collation.Text.ext (collation.eq_of_plain _ _ a.plain b.plain h)

/-- The place of a delivery in the list: the latest comes first. -/
abbrev Collation.Key := (collation.Text ×ₗ collation.Text)ᵒᵈ

def createdText (delivery : WebhookDeliveryRecord) : collation.Text :=
  ⟨delivery.createdAt,by
    obtain ⟨moment,h⟩ := delivery.createdAt_made
    exact h ▸ plain_toISOString moment⟩

def idText (delivery : WebhookDeliveryRecord) : collation.Text :=
  ⟨delivery.id,by
    obtain ⟨random,h⟩ := delivery.id_made
    exact h ▸ plain_deliveryId random⟩

def placeOf (delivery : WebhookDeliveryRecord) : collation.Key :=
  .toDual (toLex (createdText collation delivery,idText collation delivery))

variable {collation} {a b : WebhookDeliveryRecord}

theorem placeOf_inj : placeOf collation a = placeOf collation b ↔ a.createdAt = b.createdAt ∧ a.id = b.id := by
  rw [placeOf,placeOf,OrderDual.toDual_inj,toLex_inj,Prod.mk.injEq,Collation.Text.ext_iff,
    Collation.Text.ext_iff]
  rfl

theorem placeOf_lt : placeOf collation a < placeOf collation b ↔ Above collation a b := by
  rw [placeOf,placeOf,OrderDual.toDual_lt_toDual,Prod.Lex.toLex_lt_toLex,collation.text_lt,
    collation.text_lt,Collation.Text.ext_iff]
  rfl

theorem placeOf_le : placeOf collation a ≤ placeOf collation b ↔ compareDeliveries collation a b ≠ .gt := by
  have hcreated := collation.swap b.createdAt a.createdAt
  have hid := collation.swap b.id a.id
  have heq : a.createdAt = b.createdAt ↔ collation.localeCompare a.createdAt b.createdAt = .eq := by
    have htext := Collation.text_eq collation (a := createdText collation a) (b := createdText collation b)
    rwa [Collation.Text.ext_iff] at htext
  rw [← not_lt,placeOf_lt,Above,heq,compareDeliveries,hcreated,hid]
  cases collation.localeCompare b.createdAt a.createdAt with
  | lt => simp
  | gt => simp
  | eq => cases collation.localeCompare b.id a.id <;> simp

end Order

section Pages

variable {runtime : Runtime} {collation : Collation} {deliveries : List WebhookDeliveryRecord}

/-- What the runtime has written for a cursor can be read. -/
def ReadsCursors (runtime : Runtime) : Prop :=
  ∀ delivery : WebhookDeliveryRecord,
    runtime.parse (string (cursorText delivery.createdAt delivery.id)) =
      some (cursorPayload delivery.createdAt delivery.id)

def places (collation : Collation) (deliveries : List WebhookDeliveryRecord) :
    List collation.Key := (sortDeliveries collation deliveries).map (placeOf collation)

theorem mem_places {place : collation.Key} :
    place ∈ places collation deliveries ↔ ∃ delivery ∈ deliveries, placeOf collation delivery = place := by
  rw [places,List.mem_map]
  exact exists_congr fun delivery => and_congr_left fun _ => List.mem_mergeSort

theorem places_sortedLT (hdistinct : (deliveries.map WebhookDeliveryRecord.id).Nodup) :
    (places collation deliveries).SortedLT := by
  have hsorted : (sortDeliveries collation deliveries).Pairwise fun a b =>
      placeOf collation a ≤ placeOf collation b := by
    refine (List.pairwise_mergeSort ?_ ?_ deliveries).imp fun h => placeOf_le.mpr (of_decide_eq_true h)
    · intro a b c hab hbc
      simp only [decide_eq_true_eq] at hab hbc ⊢
      exact placeOf_le.mp ((placeOf_le.mpr hab).trans (placeOf_le.mpr hbc))
    · intro a b
      rw [Bool.or_eq_true,decide_eq_true_eq,decide_eq_true_eq,← placeOf_le,← placeOf_le]
      exact le_total _ _
  have hids : ((sortDeliveries collation deliveries).map WebhookDeliveryRecord.id).Nodup :=
    (((List.mergeSort_perm deliveries _).map _).nodup_iff).mpr hdistinct
  have hnodup : (places collation deliveries).Nodup := by
    refine (List.nodup_map_iff_inj_on (List.Nodup.of_map _ hids)).mpr fun a ha b hb h => ?_
    exact List.inj_on_of_nodup_map hids ha hb (placeOf_inj.mp h).2
  exact (List.pairwise_map.mpr hsorted).sortedLE.sortedLT_of_nodup hnodup

theorem startIndex_eq (hreads : ReadsCursors runtime)
    (hdistinct : (deliveries.map WebhookDeliveryRecord.id).Nodup)
    {last : Option WebhookDeliveryRecord}
    (hlast : ∀ d ∈ last, placeOf collation d ∈ places collation deliveries) :
    ∃ start, startIndex runtime (sortDeliveries collation deliveries)
        (last.map encodeDeliveryCursor) = .ok start ∧
      ((sortDeliveries collation deliveries).drop start).map (placeOf collation) =
        Paging.after (last.map (placeOf collation)) (places collation deliveries) := by
  cases last with
  | none => exact ⟨0,rfl,by simp [Paging.after,places]⟩
  | some d =>
    obtain ⟨other,hother,hkey⟩ := List.mem_map.mp (hlast d rfl)
    have hsame : ∀ e : WebhookDeliveryRecord,
        (isText (.str (string d.createdAt)) e.createdAt && isText (.str (string d.id)) e.id) =
          true ↔ placeOf collation e = placeOf collation d := by
      intro e
      simp only [isText,Bool.and_eq_true,decide_eq_true_eq,string_injective.eq_iff,placeOf_inj]
      exact and_congr eq_comm eq_comm
    cases hfind : (sortDeliveries collation deliveries).findIdx? fun delivery =>
        isText (.str (string d.createdAt)) delivery.createdAt &&
          isText (.str (string d.id)) delivery.id with
    | none =>
      have hno := List.findIdx?_eq_none_iff.mp hfind other hother
      rw [(hsame other).mpr hkey] at hno
      cases hno
    | some i =>
      obtain ⟨hi,hp,-⟩ := List.findIdx?_eq_some_iff_getElem.mp hfind
      refine ⟨i+1,?_,?_⟩
      · rw [Option.map_some,startIndex,Option.filter_some,
          if_pos (decide_eq_true (encodeDeliveryCursor_ne_empty d))]
        simp only [decodeDeliveryCursor_encode (hreads d),bind,Except.bind,hfind]
        rfl
      · rw [List.map_drop]
        refine Paging.drop_succ_eq_after (places_sortedLT hdistinct) ?_
        rw [places,List.getElem?_map,List.getElem?_eq_getElem hi]
        exact congrArg some ((hsame _).mp hp)

theorem normalizedLimit_pos (limit : Option ℤ) : 0 < normalizedLimit limit := by
  unfold normalizedLimit
  omega

/-- A page has the places that come after the last delivery seen, and names its own last one. -/
theorem listWebhookDeliveryPage_eq (hreads : ReadsCursors runtime)
    (hdistinct : (deliveries.map WebhookDeliveryRecord.id).Nodup) (limit : Option ℤ)
    {last : Option WebhookDeliveryRecord}
    (hlast : ∀ d ∈ last, placeOf collation d ∈ places collation deliveries) :
    ∃ (page : WebhookDeliveryPage) (next : Option WebhookDeliveryRecord),
      listWebhookDeliveryPage runtime collation deliveries limit
        (last.map encodeDeliveryCursor) = .ok page ∧
      page.nextCursor = next.map encodeDeliveryCursor ∧
      page.deliveries.map (placeOf collation) = Paging.page (last.map (placeOf collation))
        (normalizedLimit limit) (places collation deliveries) ∧
      Paging.next (last.map (placeOf collation)) (normalizedLimit limit)
        (places collation deliveries) = next.map (placeOf collation) := by
  obtain ⟨start,hstart,hafter⟩ := startIndex_eq hreads hdistinct hlast
  unfold listWebhookDeliveryPage
  simp only [hstart,bind,Except.bind]
  generalize (sortDeliveries collation deliveries).drop start = rest at hafter ⊢
  generalize normalizedLimit limit = size
  have hlength : (Paging.after (last.map (placeOf collation)) (places collation deliveries)).length =
      rest.length := by rw [← hafter,List.length_map]
  have hmore : size < (rest.take (size+1)).length ↔ size < rest.length := by
    rw [List.length_take]
    omega
  refine ⟨_,if size < rest.length then (rest.take size).getLast? else none,rfl,?_,?_,?_⟩
  · simp only [decide_eq_true_eq,hmore]
    split_ifs
    · rw [List.take_take,min_eq_left (Nat.le_succ size)]
    · rfl
  · rw [Paging.page,← hafter,← List.map_take]
    simp only [decide_eq_true_eq,hmore]
    split_ifs with hlt
    · rw [List.take_take,min_eq_left (Nat.le_succ size)]
    · rw [List.take_of_length_le (by omega),List.take_of_length_le (not_lt.mp hlt)]
  · rw [Paging.next,hlength,Paging.page,← hafter,← List.map_take]
    split_ifs
    · exact List.getLast?_map
    · rfl

end Pages

section Arrivals

variable {runtime : Runtime} {collation : Collation}
  {before after deliveries : List WebhookDeliveryRecord}

def timeOf (place : collation.Key) : collation.Text := (ofLex (OrderDual.ofDual place)).1

/-- Nothing leaves the list, and what enters it is not earlier than the rest. -/
def Later (collation : Collation) (before after : List WebhookDeliveryRecord) : Prop :=
  (∀ place ∈ places collation before, place ∈ places collation after) ∧
    ∀ place ∈ places collation after, place ∈ places collation before ∨
      ∀ old ∈ places collation before, timeOf old ≤ timeOf place

theorem Later.refl (collation : Collation) (deliveries : List WebhookDeliveryRecord) :
    Later collation deliveries deliveries :=
  ⟨fun _ h => h,fun _ h => .inl h⟩

theorem Later.trans {middle : List WebhookDeliveryRecord} (h : Later collation before middle)
    (h' : Later collation middle after) : Later collation before after := by
  refine ⟨fun place hplace => h'.1 place (h.1 place hplace),fun place hplace => ?_⟩
  rcases h'.2 place hplace with hmiddle | hlate
  · exact h.2 place hmiddle
  · exact .inr fun old hold => hlate old (h.1 old hold)

theorem later_of_step (h : DeliveryStep collation before after) : Later collation before after := by
  cases h with
  | arrives delivery hid hlate =>
    refine ⟨fun place hplace => ?_,fun place hplace => ?_⟩
    · obtain ⟨d,hd,rfl⟩ := mem_places.mp hplace
      exact mem_places.mpr ⟨d,List.mem_cons_of_mem _ hd,rfl⟩
    · obtain ⟨d,hd,rfl⟩ := mem_places.mp hplace
      rcases List.mem_cons.mp hd with rfl | hd
      · refine .inr fun old hold => ?_
        obtain ⟨o,ho,rfl⟩ := mem_places.mp hold
        exact not_lt.mp fun hlt => hlate o ho (collation.text_lt.mp hlt)
      · exact .inl (mem_places.mpr ⟨d,hd,rfl⟩)
  | @updated before after old new hid hcreated =>
    have hsame : ∀ place, place ∈ places collation (before ++ old :: after) ↔
        place ∈ places collation (before ++ new :: after) := by
      intro place
      have hkey : placeOf collation new = placeOf collation old := placeOf_inj.mpr ⟨hcreated,hid⟩
      simp only [mem_places,List.mem_append,List.mem_cons,or_and_right,exists_or,exists_eq_left,hkey]
    exact ⟨fun place => (hsame place).mp,fun place hplace => .inl ((hsame place).mpr hplace)⟩

theorem distinct_of_step (h : DeliveryStep collation before after)
    (hdistinct : (before.map WebhookDeliveryRecord.id).Nodup) :
    (after.map WebhookDeliveryRecord.id).Nodup := by
  cases h with
  | arrives delivery hid hlate =>
    refine List.nodup_cons.mpr ⟨fun hmem => ?_,hdistinct⟩
    obtain ⟨old,hold,heq⟩ := List.mem_map.mp hmem
    exact hid old hold heq
  | updated old new hid hcreated =>
    simpa only [List.map_append,List.map_cons,hid] using hdistinct

theorem later_of_steps (h : Relation.ReflTransGen (DeliveryStep collation) before after) :
    Later collation before after := by
  induction h with
  | refl => exact .refl collation before
  | tail _ hstep ih => exact ih.trans (later_of_step hstep)

theorem distinct_of_steps (h : Relation.ReflTransGen (DeliveryStep collation) before after)
    (hdistinct : (before.map WebhookDeliveryRecord.id).Nodup) :
    (after.map WebhookDeliveryRecord.id).Nodup := by
  induction h with
  | refl => exact hdistinct
  | tail _ hstep ih => exact distinct_of_step hstep ih

/-- Of the deliveries behind a cursor only those of its own moment can still grow in number, and
there are only finitely many ids. -/
theorem finite_behind {last : collation.Key} (hlast : last ∈ places collation before) :
    ∃ S : Set collation.Key, S.Finite ∧ ∀ after, Later collation before after →
      ∀ place ∈ places collation after, last < place → place ∈ S := by
  let fresh : (Fin 8 → UInt8) → collation.Key := fun random =>
    .toDual (toLex (timeOf last,⟨deliveryId random,plain_deliveryId random⟩))
  have hbyte : Finite UInt8 :=
    Finite.of_injective UInt8.toFin fun a b h => UInt8.toFin_inj.mp h
  refine ⟨{place | place ∈ places collation before} ∪ Set.range fresh,
    (List.finite_toSet _).union (Set.finite_range fresh),fun after hlater place hplace hlt => ?_⟩
  rcases hlater.2 place hplace with hold | hlate
  · exact .inl hold
  · refine .inr ?_
    obtain ⟨d,-,rfl⟩ := mem_places.mp hplace
    obtain ⟨random,hrandom⟩ := d.id_made
    have htime : timeOf (placeOf collation d) = timeOf last := by
      refine le_antisymm ?_ (hlate last hlast)
      rcases Prod.Lex.lt_iff.mp (OrderDual.ofDual_lt_ofDual.mpr hlt) with h | h
      · exact h.le
      · exact h.1.le
    refine ⟨random,?_⟩
    refine congrArg OrderDual.toDual (congrArg toLex (Prod.ext htime.symm ?_))
    exact Collation.Text.ext hrandom.symm

end Arrivals

section Traversals

variable {runtime : Runtime} {collation : Collation}

abbrev ListRequest := List WebhookDeliveryRecord × Option ℤ

def ListRequest.places (collation : Collation) (request : ListRequest) :
    List collation.Key × ℕ :=
  (Backend.places collation request.1,normalizedLimit request.2)

/-- Lists with distinct ids that lose nothing from one request to the next. -/
def Lasting (collation : Collation) (requests : List ListRequest) : Prop :=
  (∀ r ∈ requests, (r.1.map WebhookDeliveryRecord.id).Nodup) ∧
    requests.Pairwise fun r r' => ∀ place ∈ places collation r.1, place ∈ places collation r'.1

theorem placeOf_last_mem {last : Option WebhookDeliveryRecord} {next : WebhookDeliveryRecord}
    {request : ListRequest} {requests : List ListRequest}
    (hlasting : Lasting collation (request :: requests))
    (hnext : Paging.next (last.map (placeOf collation)) (normalizedLimit request.2)
      (places collation request.1) = some (placeOf collation next)) :
    ∀ d ∈ some next, ∀ r ∈ requests, placeOf collation d ∈ places collation r.1 := by
  rintro d ⟨⟩ r hr
  have hmem := (Paging.mem_page (Paging.mem_page_of_next_some hnext)).1
  exact (List.pairwise_cons.mp hlasting.2).1 r hr _ hmem

theorem Lasting.tail {request : ListRequest} {requests : List ListRequest}
    (h : Lasting collation (request :: requests)) : Lasting collation requests :=
  ⟨fun r hr => h.1 r (List.mem_cons_of_mem _ hr),(List.pairwise_cons.mp h.2).2⟩

theorem traversal_of_follows (hreads : ReadsCursors runtime) {cursor : Option String}
    {requests : List ListRequest} {pages : List (List WebhookDeliveryRecord)}
    (hfollows : Follows runtime collation cursor requests pages)
    (hlasting : Lasting collation requests) {last : Option WebhookDeliveryRecord}
    (hcursor : cursor = last.map encodeDeliveryCursor)
    (hlast : ∀ d ∈ last, ∀ r ∈ requests, placeOf collation d ∈ places collation r.1) :
    Paging.Traversal (last.map (placeOf collation)) (requests.map (ListRequest.places collation))
      (pages.map (List.map (placeOf collation))) := by
  induction hfollows generalizing last with
  | @last cursor deliveries limit page hpage h =>
    subst hcursor
    obtain ⟨page',next,hok,hnext,hplaces,htraversal⟩ := listWebhookDeliveryPage_eq hreads
      (hlasting.1 _ (List.mem_singleton_self _)) limit
      (fun d hd => hlast d hd _ (List.mem_singleton_self _))
    obtain rfl := Except.ok.inj (hpage.symm.trans hok)
    rw [h,eq_comm,Option.map_eq_none_iff] at hnext
    rw [hnext,Option.map_none] at htraversal
    rw [List.map_singleton,List.map_singleton,hplaces]
    exact .last htraversal
  | @more cursor text deliveries limit page requests pages hpage h rest ih =>
    subst hcursor
    obtain ⟨page',next,hok,hnext,hplaces,htraversal⟩ := listWebhookDeliveryPage_eq hreads
      (hlasting.1 _ List.mem_cons_self) limit
      (fun d hd => hlast d hd _ List.mem_cons_self)
    obtain rfl := Except.ok.inj (hpage.symm.trans hok)
    rw [h] at hnext
    obtain ⟨d,rfl,htext⟩ := Option.map_eq_some_iff.mp hnext.symm
    rw [List.map_cons,List.map_cons,hplaces]
    have hcursor : some text = (some d).map encodeDeliveryCursor := congrArg some htext.symm
    exact .more htraversal (ih hlasting.tail hcursor (placeOf_last_mem hlasting htraversal))

theorem exists_follows (hreads : ReadsCursors runtime) {requests : List ListRequest}
    (hlasting : Lasting collation requests) {last : Option WebhookDeliveryRecord}
    (hlast : ∀ d ∈ last, ∀ r ∈ requests, placeOf collation d ∈ places collation r.1)
    {pages : List (List collation.Key)} (htraversal : Paging.Traversal
      (last.map (placeOf collation)) (requests.map (ListRequest.places collation)) pages) :
    ∃ pages, Follows runtime collation (last.map encodeDeliveryCursor) requests pages := by
  induction requests generalizing last pages with
  | nil => cases htraversal
  | cons request requests ih =>
    obtain ⟨page,next,hok,hnext,-,hplaces⟩ := listWebhookDeliveryPage_eq hreads
      (hlasting.1 _ List.mem_cons_self) request.2 (fun d hd => hlast d hd _ List.mem_cons_self)
    rcases Paging.Traversal.head htraversal with ⟨hnone,hend⟩ | ⟨c,pages',hsome,hrest⟩
    · rw [hplaces,Option.map_eq_none_iff] at hnone
      subst hnone
      obtain rfl := List.map_eq_nil_iff.mp hend
      exact ⟨_,.last hok hnext⟩
    · rw [hplaces] at hsome
      obtain ⟨d,rfl,rfl⟩ := Option.map_eq_some_iff.mp hsome
      obtain ⟨pages'',hfollows⟩ := ih hlasting.tail (placeOf_last_mem hlasting hplaces) hrest
      exact ⟨_,.more hok hnext hfollows⟩

end Traversals

section Stability

section Requests

variable {runtime : Runtime} {collation : Collation} {deliveries : ℕ → List WebhookDeliveryRecord}

theorem distinct_always (hdistinct : ((deliveries 0).map WebhookDeliveryRecord.id).Nodup)
    (harrive : ∀ n, Relation.ReflTransGen (DeliveryStep collation) (deliveries n)
      (deliveries (n+1))) (n : ℕ) : ((deliveries n).map WebhookDeliveryRecord.id).Nodup := by
  induction n with
  | zero => exact hdistinct
  | succ n ih => exact distinct_of_steps (harrive n) ih

theorem later_always (harrive : ∀ n, Relation.ReflTransGen (DeliveryStep collation) (deliveries n)
    (deliveries (n+1))) {m n : ℕ} (hmn : m ≤ n) : Later collation (deliveries m) (deliveries n) := by
  induction n, hmn using Nat.le_induction with
  | base => exact .refl collation _
  | succ n _ ih => exact ih.trans (later_of_steps (harrive n))

/-- The first requests of a traversal, each at its time and with its limit. -/
abbrev requestsTo (deliveries : ℕ → List WebhookDeliveryRecord) (limits : ℕ → Option ℤ) (n : ℕ) :
    List ListRequest :=
  (List.range (n+1)).map fun k => (deliveries k,limits k)

theorem mem_requestsTo {limits : ℕ → Option ℤ} {n : ℕ} {r : List collation.Key × ℕ}
    (hr : r ∈ (requestsTo deliveries limits n).map (ListRequest.places collation)) :
    ∃ k ≤ n, r = (places collation (deliveries k),normalizedLimit (limits k)) := by
  rw [requestsTo,List.map_map] at hr
  obtain ⟨k,hk,rfl⟩ := List.mem_map.mp hr
  exact ⟨k,Nat.lt_succ_iff.mp (List.mem_range.mp hk),rfl⟩

variable (hdistinct : ((deliveries 0).map WebhookDeliveryRecord.id).Nodup)
  (harrive : ∀ n, Relation.ReflTransGen (DeliveryStep collation) (deliveries n)
    (deliveries (n+1))) (limits : ℕ → Option ℤ)

include hdistinct harrive

theorem lasting_requestsTo (n : ℕ) : Lasting collation (requestsTo deliveries limits n) := by
  refine ⟨fun r hr => ?_,List.pairwise_map.mpr (List.pairwise_lt_range.imp fun hlt => ?_)⟩
  · obtain ⟨k,-,rfl⟩ := List.mem_map.mp hr
    exact distinct_always hdistinct harrive k
  · exact (later_always harrive hlt.le).1

theorem exists_pages (hreads : ReadsCursors runtime) : ∃ n pages,
    Follows runtime collation none (requestsTo deliveries limits n) pages := by
  have hfinite : ∀ c ∈ places collation (deliveries 0), ∃ S : Set collation.Key, S.Finite ∧
      ∀ n, ∀ x ∈ places collation (deliveries (n+1)), c < x → x ∈ S := by
    intro c hc
    obtain ⟨S,hS,hbehind⟩ := finite_behind hc
    exact ⟨S,hS,fun n => hbehind _ (later_always harrive (Nat.zero_le _))⟩
  obtain ⟨n,pages,ht⟩ : ∃ n pages, Paging.Traversal (none : Option collation.Key)
      ((List.range (n+1)).map fun k => ListRequest.places collation (deliveries k,limits k))
      pages := Paging.exists_traversal_of_finite_behind hfinite
  have hplaces : Paging.Traversal ((none : Option WebhookDeliveryRecord).map (placeOf collation))
      ((requestsTo deliveries limits n).map (ListRequest.places collation)) pages := by
    rw [requestsTo,List.map_map]
    exact ht
  exact ⟨n,exists_follows hreads (lasting_requestsTo hdistinct harrive limits n)
    (fun d hd => by cases hd) hplaces⟩

/-- Ids do not come twice in the order, since a place in it has one delivery of the last list. -/
theorem nodup_of_above {n : ℕ} {listed : List WebhookDeliveryRecord}
    (habove : listed.Pairwise (Above collation))
    (hmem : ∀ d ∈ listed, ∃ d' ∈ deliveries n, placeOf collation d' = placeOf collation d) :
    (listed.map WebhookDeliveryRecord.id).Nodup := by
  refine List.pairwise_map.mpr (habove.imp_of_mem fun {a b} ha hb hab hid => ?_)
  obtain ⟨a',ha',hkey⟩ := hmem a ha
  obtain ⟨b',hb',hkey'⟩ := hmem b hb
  have hsame : a' = b' := by
    refine List.inj_on_of_nodup_map (distinct_always hdistinct harrive n) ha' hb' ?_
    exact (placeOf_inj.mp hkey).2.trans (hid.trans (placeOf_inj.mp hkey').2.symm)
  rw [hsame] at hkey
  exact absurd (placeOf_lt.mpr hab) (by rw [← hkey,hkey']; exact lt_irrefl _)

theorem pages_complete (hreads : ReadsCursors runtime) {n : ℕ}
    {pages : List (List WebhookDeliveryRecord)}
    (hfollows : Follows runtime collation none (requestsTo deliveries limits n) pages) :
    pages.flatten.Pairwise (Above collation) ∧
      (pages.flatten.map WebhookDeliveryRecord.id).Nodup ∧
      ∀ delivery ∈ deliveries 0,
        (pages.flatten.map WebhookDeliveryRecord.id).count delivery.id = 1 := by
  have ht : Paging.Traversal ((none : Option WebhookDeliveryRecord).map (placeOf collation))
      ((requestsTo deliveries limits n).map (ListRequest.places collation))
      (pages.map (List.map (placeOf collation))) :=
    traversal_of_follows hreads hfollows (lasting_requestsTo hdistinct harrive limits n) rfl
      (fun d hd => by cases hd)
  have hlists : ∀ r ∈ (requestsTo deliveries limits n).map (ListRequest.places collation),
      r.1.SortedLT ∧ 0 < r.2 := by
    intro r hr
    obtain ⟨k,-,rfl⟩ := mem_requestsTo hr
    exact ⟨places_sortedLT (distinct_always hdistinct harrive k),normalizedLimit_pos _⟩
  have hsorted := ht.sortedLT fun r hr => (hlists r hr).1
  rw [← List.map_flatten] at hsorted
  have habove : pages.flatten.Pairwise (Above collation) :=
    (List.pairwise_map.mp hsorted.pairwise).imp placeOf_lt.mp
  have hlisted : ∀ d ∈ pages.flatten,
      ∃ d' ∈ deliveries n, placeOf collation d' = placeOf collation d := by
    intro d hd
    have hmem : placeOf collation d ∈ (pages.map (List.map (placeOf collation))).flatten := by
      rw [← List.map_flatten]
      exact List.mem_map_of_mem hd
    obtain ⟨r,hr,hplace⟩ := ht.received hmem
    obtain ⟨k,hk,rfl⟩ := mem_requestsTo hr
    exact mem_places.mp ((later_always harrive hk).1 _ hplace)
  have hnodup := nodup_of_above hdistinct harrive habove hlisted
  refine ⟨habove,hnodup,fun d hd => List.count_eq_one_of_mem hnodup ?_⟩
  have hmem := ht.complete hlists (x := placeOf collation d) (fun r hr => by
    obtain ⟨k,-,rfl⟩ := mem_requestsTo hr
    exact (later_always harrive (Nat.zero_le k)).1 _ (mem_places.mpr ⟨d,hd,rfl⟩))
    (fun c hc => by cases hc)
  rw [← List.map_flatten] at hmem
  obtain ⟨e,he,hkey⟩ := List.mem_map.mp hmem
  exact List.mem_map.mpr ⟨e,he,(placeOf_inj.mp hkey).2⟩

end Requests

/-- While deliveries arrive that are not earlier than the others, following the cursors ends,
shows them from the latest to the earliest, none twice, and each that was there at the beginning
once. -/
theorem deliveryPages_stable (runtime : Runtime) (collation : Collation)
    (hreads : ReadsCursors runtime) {deliveries : ℕ → List WebhookDeliveryRecord}
    (hdistinct : ((deliveries 0).map WebhookDeliveryRecord.id).Nodup)
    (harrive : ∀ n, Relation.ReflTransGen (DeliveryStep collation) (deliveries n)
      (deliveries (n+1))) (limits : ℕ → Option ℤ) :
    (∃ n pages, Follows runtime collation none
      ((List.range (n+1)).map fun k => (deliveries k,limits k)) pages) ∧
    (∀ n pages, Follows runtime collation none
        ((List.range (n+1)).map fun k => (deliveries k,limits k)) pages →
      pages.flatten.Pairwise (Above collation) ∧
      (pages.flatten.map WebhookDeliveryRecord.id).Nodup ∧
      ∀ delivery ∈ deliveries 0,
        (pages.flatten.map WebhookDeliveryRecord.id).count delivery.id = 1) ∧
    ∀ delivery : WebhookDeliveryRecord,
      decodeDeliveryCursor runtime (encodeDeliveryCursor delivery) =
        .ok (.str (string delivery.createdAt),.str (string delivery.id)) := by
  exact ⟨exists_pages hdistinct harrive limits hreads,
    fun n pages hfollows => pages_complete hdistinct harrive limits hreads hfollows,
    fun delivery => decodeDeliveryCursor_encode (hreads delivery)⟩

def readCursor (units : List CodeUnit) : Option (Json Double) :=
  let text := wellFormed units
  let createdAt := (text.drop 14).takeWhile (· ≠ '"')
  let id := (text.drop (14+createdAt.length+8)).takeWhile (· ≠ '"')
  some (cursorPayload (String.ofList createdAt) (String.ofList id))

def cursorRuntime : Runtime := ⟨readCursor,fun _ => [0xFFFD]⟩

def characterOrder : Collation where
  localeCompare := compare
  swap a b := by
    rcases lt_trichotomy a b with h | rfl | h
    · rw [compare_lt_iff_lt.mpr h,compare_gt_iff_gt.mpr h]
      rfl
    · rw [compare_eq_iff_eq.mpr rfl]
      rfl
    · rw [compare_lt_iff_lt.mpr h,compare_gt_iff_gt.mpr h]
      rfl
  trans a b c hab hbc :=
    compare_le_iff_le.mpr ((compare_le_iff_le.mp hab).trans (compare_le_iff_le.mp hbc))
  eq_of_plain a b _ _ h := compare_eq_iff_eq.mp h

theorem quote_plain {text : String} (h : Plain text) :
    quote (string text) = '"' :: text.toList ++ ['"'] := by
  have hescapes : ∀ c, PlainChar c → shortEscapes.lookup c = none := by
    intro c hc
    refine List.lookup_eq_none_iff.mpr fun p hp => ?_
    have hall : shortEscapes.all (fun p => decide ¬PlainChar p.1) = true := by decide
    have hnot := of_decide_eq_true (List.all_eq_true.mp hall p hp)
    exact bne_iff_ne.mpr fun heq => hnot (heq ▸ hc)
  have hpoint : ∀ cs : List Char, (∀ c ∈ cs, PlainChar c) →
      (cs.map CodePoint.scalar).flatMap quotePoint = cs := by
    intro cs hcs
    induction cs with
    | nil => rfl
    | cons c cs ih =>
      obtain ⟨hc,hrest⟩ := List.forall_mem_cons.mp hcs
      rw [List.map_cons,List.flatMap_cons,ih hrest,quotePoint,hescapes c hc]
      simp only [if_neg (not_lt.mpr hc.1)]
      rfl
  rw [quote,string,codePoints_units,hpoint _ h]

theorem cursorRuntime_reads : ReadsCursors cursorRuntime := by
  intro delivery
  have hcreated : Plain delivery.createdAt := (createdText characterOrder delivery).plain
  have hid : Plain delivery.id := (idText characterOrder delivery).plain
  have hread : ∀ {x : String} {rest : List Char}, Plain x →
      (x.toList ++ '"' :: rest).takeWhile (· ≠ '"') = x.toList := by
    intro x rest hx
    rw [List.takeWhile_append_of_pos fun c hc => decide_eq_true (hx c hc).2.2.1,
      List.takeWhile_cons_of_neg (by simp),List.append_nil]
  have hfront : "\x7b\"createdAt\":".toList ++ ['"'] = "\x7b\"createdAt\":\"".toList := by decide
  have hmiddle : '"' :: ",\"id\":".toList ++ ['"'] = "\",\"id\":\"".toList := by decide
  have htext : wellFormed (string (cursorText delivery.createdAt delivery.id)) =
      "\x7b\"createdAt\":\"".toList ++ (delivery.createdAt.toList ++ ("\",\"id\":\"".toList ++
        (delivery.id.toList ++ '"' :: "\x7d".toList))) := by
    unfold cursorText
    rw [string,wellFormed_units,String.toList_ofList,quote_plain hcreated,quote_plain hid,
      ← hfront,← hmiddle]
    simp only [List.append_assoc,List.cons_append,List.nil_append]
  have hlast : wellFormed (string (cursorText delivery.createdAt delivery.id)) =
      ("\x7b\"createdAt\":\"".toList ++ delivery.createdAt.toList ++ "\",\"id\":\"".toList) ++
        (delivery.id.toList ++ '"' :: "\x7d".toList) := by
    rw [htext]
    simp only [List.append_assoc]
  have hfirst : ((wellFormed (string (cursorText delivery.createdAt delivery.id))).drop
      14).takeWhile (· ≠ '"') = delivery.createdAt.toList := by
    rw [htext,List.drop_left' (by decide),← hmiddle]
    exact hread hcreated
  simp only [cursorRuntime,readCursor,hfirst]
  rw [hlast,List.drop_left' ?_,hread hid,String.ofList_toList,String.ofList_toList]
  have hlengths : "\x7b\"createdAt\":\"".toList.length = 14 ∧ "\",\"id\":\"".toList.length = 8 := by
    decide
  rw [List.length_append,List.length_append,hlengths.1,hlengths.2]

def deliveryOf (moment : ℤ) (b : UInt8) : WebhookDeliveryRecord where
  id := deliveryId fun _ => b
  endpointId := "wh_000000000000"
  endpointUrl := "https://example.org"
  eventType := .depositCreated
  status := .pending
  attempts := 0
  createdAt := Calendar.toISOString moment
  updatedAt := Calendar.toISOString moment
  id_made := ⟨_,rfl⟩
  createdAt_made := ⟨moment,rfl⟩

/-- Two deliveries, and a third one of the same moment as the later of them. -/
def arriving : ℕ → List WebhookDeliveryRecord
  | 0 => [deliveryOf 1 2,deliveryOf 0 3]
  | _+1 => [deliveryOf 1 1,deliveryOf 1 2,deliveryOf 0 3]

theorem deliveryPages_stable_arriving : ∃ n pages, Follows cursorRuntime characterOrder none
    ((List.range (n+1)).map fun k => (arriving k,some 1)) pages := by
  have hdistinct : ((arriving 0).map WebhookDeliveryRecord.id).Nodup := by decide +kernel
  have hnew : ∀ old ∈ arriving 0, old.id ≠ (deliveryOf 1 1).id := by
    rw [arriving,List.forall_mem_cons,List.forall_mem_singleton]
    decide +kernel
  have hlate : ∀ old ∈ arriving 0,
      characterOrder.localeCompare (deliveryOf 1 1).createdAt old.createdAt ≠ .lt := by
    rw [arriving,List.forall_mem_cons,List.forall_mem_singleton]
    decide +kernel
  refine (deliveryPages_stable cursorRuntime characterOrder cursorRuntime_reads hdistinct
    (fun n => ?_) fun _ => some 1).1
  cases n with
  | zero => exact .single (.arrives (deliveryOf 1 1) hnew hlate)
  | succ n => exact .refl

end Stability

end YieldVault.Backend
