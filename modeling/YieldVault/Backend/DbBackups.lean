import YieldVault.Paging
import YieldVault.Runs

/-! The daily backup of the database: a dump is uploaded to a bucket, and the objects that
have outlived the retention are deleted page by page. Other servers work on the same
bucket between any two commands. The bucket lists its keys in ascending order. -/
namespace YieldVault.Backend

structure BackupResult (K : Type) where
  key : K
  sizeBytes : ℕ
  deletedCount : ℕ

structure Bucket (K : Type) where
  keys : List K
  lastModified : K → ℤ

inductive BackupPhase (K : Type)
  | dumping
  | uploading
  | listing (continuationToken : Option K)
  | deleting (key : K) (rest : List K) (continuationToken : Option K)
  | completed (result : BackupResult K)
  | failed

/-- `runDbBackupJob` on its way; `key` names the object of this backup. -/
structure BackupTask (K : Type) where
  key : K
  sizeBytes : ℕ := 0
  cutoff : ℤ := 0
  deleted : ℕ := 0
  phase : BackupPhase K := .dumping

/-- The bucket, the job, and what its deletions have met: the key, and when the object
there was last modified, if there was one. -/
structure BackupStore (K : Type) where
  retentionDays : ℤ := 30
  bucket : Bucket K
  task : BackupTask K
  removed : List (K × Option ℤ) := []

/-- Other servers put and remove objects; the commands of the job are carried out and
answered one after the other, or one of them fails. -/
inductive BackupEvent (K : Type)
  | put (key : K) (time : ℤ)
  | remove (key : K)
  | dumped (sizeBytes : ℕ)
  | uploaded (time now : ℤ)
  | listed (size : ℕ)
  | deleted
  | rejected

variable {K : Type} [LinearOrder K]

namespace Bucket

def put (key : K) (time : ℤ) (b : Bucket K) : Bucket K :=
  ⟨Paging.insertNew key b.keys,Function.update b.lastModified key time⟩

def remove (key : K) (b : Bucket K) : Bucket K := { b with keys := b.keys.filter (· ≠ key) }

def modifiedAt (key : K) (b : Bucket K) : Option ℤ :=
  if key ∈ b.keys then some (b.lastModified key) else none

end Bucket

/-- Milliseconds of a day; `setUTCDate` goes back by whole days. -/
def millisPerDay : ℤ := 86400000

namespace BackupTask

/-- The next command of the loops: the next old object of the page, then the next page. -/
def goOn (t : BackupTask K) (old : List K) (continuationToken : Option K) : BackupTask K :=
  match old, continuationToken with
  | key :: rest, token => { t with phase := .deleting key rest token }
  | [], some token => { t with phase := .listing (some token) }
  | [], none => { t with phase := .completed ⟨t.key,t.sizeBytes,t.deleted⟩ }

end BackupTask

def oldKeys (cutoff : ℤ) (token : Option K) (size : ℕ) (b : Bucket K) : List K :=
  (Paging.page token size b.keys).filter fun key => decide (b.lastModified key < cutoff)

namespace BackupStore

def step : BackupEvent K → BackupStore K → BackupStore K
  | .put key time, s => { s with bucket := s.bucket.put key time }
  | .remove key, s => { s with bucket := s.bucket.remove key }
  | .dumped sizeBytes, s => match s.task.phase with
    | .dumping => { s with task := { s.task with sizeBytes := sizeBytes, phase := .uploading } }
    | _ => s
  | .uploaded time now, s => match s.task.phase with
    | .uploading => { s with
        bucket := s.bucket.put s.task.key time
        task := { s.task with cutoff := now-s.retentionDays*millisPerDay, phase := .listing none } }
    | _ => s
  | .listed size, s => match s.task.phase with
    | .listing token => { s with
        task := s.task.goOn (oldKeys s.task.cutoff token size s.bucket)
          (Paging.next token size s.bucket.keys) }
    | _ => s
  | .deleted, s => match s.task.phase with
    | .deleting key rest token => { s with
        bucket := s.bucket.remove key
        task := { s.task with deleted := s.task.deleted+1 }.goOn rest token
        removed := s.removed ++ [(key,s.bucket.modifiedAt key)] }
    | _ => s
  | .rejected, s => match s.task.phase with
    | .completed _ => s
    | _ => { s with task := { s.task with phase := .failed } }

def run (events : List (BackupEvent K)) (s : BackupStore K) : BackupStore K := Runs.run step events s

def scheduled (s : BackupStore K) : List K :=
  match s.task.phase with
  | .deleting key rest _ => key :: rest
  | _ => []

/-- The cutoff has been read from the clock. -/
def pruning (s : BackupStore K) : Bool :=
  match s.task.phase with
  | .listing _ | .deleting _ _ _ | .completed _ => true
  | _ => false

/-- What the surroundings are trusted with: objects that others put are not old, and have
names that are not those of expired objects; nobody else removes the new backup; and a page of
a list is not empty unless the rest of the list is. -/
def Orderly (s : BackupStore K) : BackupEvent K → Prop
  | .put key time => s.pruning = true → s.task.cutoff ≤ time ∧ key ∉ s.scheduled
  | .remove key => key ≠ s.task.key
  | .listed size => 0 < size
  | _ => True

instance decidableOrderly (s : BackupStore K) : (ev : BackupEvent K) → Decidable (Orderly s ev)
  | .put key time =>
    inferInstanceAs (Decidable (s.pruning = true → s.task.cutoff ≤ time ∧ key ∉ s.scheduled))
  | .remove key => inferInstanceAs (Decidable (key ≠ s.task.key))
  | .listed size => inferInstanceAs (Decidable (0 < size))
  | .dumped _ | .uploaded _ _ | .deleted | .rejected => inferInstanceAs (Decidable True)

/-- The expired objects are still ahead of the job. -/
def Ahead (s : BackupStore K) : Prop :=
  match s.task.phase with
  | .listing token => ∀ k ∈ s.bucket.keys, s.bucket.lastModified k < s.task.cutoff →
      ∀ c ∈ token, c < k
  | .deleting key rest token => ∀ k ∈ s.bucket.keys, s.bucket.lastModified k < s.task.cutoff →
      k ∈ key :: rest ∨ ∃ c ∈ token, c < k
  | .completed _ => ∀ k ∈ s.bucket.keys, s.task.cutoff ≤ s.bucket.lastModified k
  | _ => True

def reached (s : BackupStore K) : List K := s.removed.map Prod.fst ++ s.scheduled

def nextToken (s : BackupStore K) : Option K :=
  match s.task.phase with
  | .listing token | .deleting _ _ token => token
  | _ => none

structure Sound (s : BackupStore K) : Prop where
  sorted : s.bucket.keys.SortedLT
  ahead : Ahead s
  expired : ∀ k ∈ s.scheduled, k ∈ s.bucket.keys → s.bucket.lastModified k < s.task.cutoff
  met : ∀ k m, (k,m) ∈ s.removed → ∀ t ∈ m, t < s.task.cutoff
  counted : s.task.deleted = s.removed.length
  ascending : s.reached.SortedLT
  below : ∀ k ∈ s.reached, ∀ c ∈ s.nextToken, k ≤ c
  first : s.pruning = false → s.task.phase ≠ .failed → s.removed = []
  start : s.task.phase = .listing none → s.removed = []
  told : ∀ result, s.task.phase = .completed result →
    result.key = s.task.key ∧ result.deletedCount = s.task.deleted

theorem sortedLT_remove {b : Bucket K} (h : b.keys.SortedLT) (key : K) :
    (b.remove key).keys.SortedLT := (h.pairwise.filter _).sortedLT

theorem mem_remove {b : Bucket K} {key k : K} :
    k ∈ (b.remove key).keys ↔ k ∈ b.keys ∧ k ≠ key := by
  simp [Bucket.remove]

theorem modifiedAt_eq_some {b : Bucket K} {key : K} {t : ℤ} :
    b.modifiedAt key = some t ↔ key ∈ b.keys ∧ b.lastModified key = t := by
  unfold Bucket.modifiedAt
  split_ifs with h
  · simp [h]
  · simp [h]

/-- Where the job goes on in its loops, given what is left of the page and the token. -/
structure Resumable (s : BackupStore K) (old : List K) (token : Option K) : Prop where
  sorted : s.bucket.keys.SortedLT
  ahead : ∀ k ∈ s.bucket.keys, s.bucket.lastModified k < s.task.cutoff →
    k ∈ old ∨ ∃ c ∈ token, c < k
  expired : ∀ k ∈ old, k ∈ s.bucket.keys → s.bucket.lastModified k < s.task.cutoff
  met : ∀ k m, (k,m) ∈ s.removed → ∀ t ∈ m, t < s.task.cutoff
  counted : s.task.deleted = s.removed.length
  ascending : (s.removed.map Prod.fst ++ old).SortedLT
  below : ∀ k ∈ s.removed.map Prod.fst ++ old, ∀ c ∈ token, k ≤ c

theorem Resumable.sound {s : BackupStore K} {old : List K} {token : Option K}
    (h : Resumable s old token) : Sound { s with task := s.task.goOn old token } := by
  cases old with
  | cons key rest =>
    refine ⟨h.sorted,h.ahead,h.expired,h.met,h.counted,h.ascending,h.below,?_,?_,?_⟩
    · intro hp
      cases hp
    · intro hp
      cases hp
    · intro result hp
      cases hp
  | nil =>
    cases token with
    | some c =>
      refine ⟨h.sorted,?_,?_,h.met,h.counted,h.ascending,h.below,?_,?_,?_⟩
      · intro k hk hold
        obtain hnil | ⟨d,hd,hlt⟩ := h.ahead k hk hold
        · exact absurd hnil List.not_mem_nil
        · intro c' hc'
          obtain rfl := Option.some.inj (hd.symm.trans hc')
          exact hlt
      · intro k hk
        exact absurd hk List.not_mem_nil
      · intro hp
        cases hp
      · intro hp
        cases hp
      · intro result hp
        cases hp
    | none =>
      refine ⟨h.sorted,?_,?_,h.met,h.counted,h.ascending,?_,?_,?_,?_⟩
      · intro k hk
        by_contra hlt
        obtain hnil | ⟨d,hd,-⟩ := h.ahead k hk (not_le.mp hlt)
        · exact absurd hnil List.not_mem_nil
        · cases hd
      · intro k hk
        exact absurd hk List.not_mem_nil
      · intro k _ c hc
        cases hc
      · intro hp
        cases hp
      · intro hp
        cases hp
      · intro result hp
        cases hp
        exact ⟨rfl,rfl⟩

theorem sound_put {s : BackupStore K} (h : Sound s) {key : K} {time : ℤ}
    (hg : Orderly s (.put key time)) : Sound (step (.put key time) s) := by
  have hsorted : (s.bucket.put key time).keys.SortedLT := Paging.insertNew_sortedLT h.sorted
  have hsame : ∀ k, k ≠ key → (s.bucket.put key time).lastModified k = s.bucket.lastModified k :=
    fun k hk => Function.update_of_ne hk _ _
  have hnew : (s.bucket.put key time).lastModified key = time := Function.update_self _ _ _
  -- an object that is old was there before the put
  have hold : s.pruning = true → ∀ k ∈ (s.bucket.put key time).keys,
      (s.bucket.put key time).lastModified k < s.task.cutoff →
      k ∈ s.bucket.keys ∧ s.bucket.lastModified k < s.task.cutoff := by
    intro hp k hk hlt
    have hne : k ≠ key := by
      rintro rfl
      rw [hnew] at hlt
      exact absurd (hg hp).1 (not_le.mpr hlt)
    rw [hsame k hne] at hlt
    exact ⟨(Paging.mem_insertNew.mp hk).resolve_left hne,hlt⟩
  refine ⟨hsorted,?_,?_,h.met,h.counted,h.ascending,h.below,h.first,h.start,h.told⟩
  · have ha := h.ahead
    unfold Ahead at ha ⊢
    change match s.task.phase with
      | .listing token => _
      | .deleting key rest token => _
      | .completed _ => _
      | _ => True
    cases hphase : s.task.phase with
    | listing token =>
      have hp : s.pruning = true := by simp [pruning,hphase]
      rw [hphase] at ha
      intro k hk hlt
      exact ha k (hold hp k hk hlt).1 (hold hp k hk hlt).2
    | deleting key' rest token =>
      have hp : s.pruning = true := by simp [pruning,hphase]
      rw [hphase] at ha
      intro k hk hlt
      exact ha k (hold hp k hk hlt).1 (hold hp k hk hlt).2
    | completed result =>
      have hp : s.pruning = true := by simp [pruning,hphase]
      rw [hphase] at ha
      intro k hk
      by_contra hlt
      have h1 := hold hp k hk (not_le.mp hlt)
      exact absurd (ha k h1.1) (not_le.mpr h1.2)
    | dumping => trivial
    | uploading => trivial
    | failed => trivial
  · intro k hk hmem
    have hp : s.pruning = true := by
      change k ∈ s.scheduled at hk
      unfold scheduled at hk
      cases hphase : s.task.phase <;> simp_all [pruning]
    have hne : k ≠ key := by
      rintro rfl
      exact (hg hp).2 hk
    change (s.bucket.put key time).lastModified k < s.task.cutoff
    rw [hsame k hne]
    exact h.expired k hk ((Paging.mem_insertNew.mp hmem).resolve_left hne)

theorem sound_remove {s : BackupStore K} (h : Sound s) (key : K) :
    Sound (step (.remove key) s) := by
  refine ⟨sortedLT_remove h.sorted key,?_,?_,h.met,h.counted,h.ascending,h.below,h.first,h.start,
    h.told⟩
  · have ha := h.ahead
    unfold Ahead at ha ⊢
    change match s.task.phase with
      | .listing token => _
      | .deleting key rest token => _
      | .completed _ => _
      | _ => True
    cases hphase : s.task.phase with
    | listing token =>
      rw [hphase] at ha
      exact fun k hk => ha k (mem_remove.mp hk).1
    | deleting key' rest token =>
      rw [hphase] at ha
      exact fun k hk => ha k (mem_remove.mp hk).1
    | completed result =>
      rw [hphase] at ha
      exact fun k hk => ha k (mem_remove.mp hk).1
    | dumping => trivial
    | uploading => trivial
    | failed => trivial
  · exact fun k hk hmem => h.expired k hk (mem_remove.mp hmem).1

theorem sound_uploaded {s : BackupStore K} (h : Sound s) (time now : ℤ) :
    Sound (step (.uploaded time now) s) := by
  cases hphase : s.task.phase with
  | uploading =>
    have hremoved : s.removed = [] := h.first (by simp [pruning,hphase]) (by simp [hphase])
    have hdeleted := h.counted
    simp only [step,hphase]
    refine ⟨Paging.insertNew_sortedLT h.sorted,?_,?_,?_,hdeleted,?_,?_,?_,?_,?_⟩
    · intro k _ _ c hc
      cases hc
    · intro k hk
      exact absurd hk List.not_mem_nil
    · intro k m hm
      rw [hremoved] at hm
      exact absurd hm List.not_mem_nil
    · simp [reached,scheduled,hremoved,List.sortedLT_iff_pairwise]
    · intro k _ c hc
      cases hc
    · intro hp
      cases hp
    · exact fun _ => hremoved
    · intro result hp
      cases hp
  | _ => simpa [step,hphase] using h

/-- A page: what is old in it is scheduled, and everything old behind it is still ahead. -/
theorem sound_listed {s : BackupStore K} (h : Sound s) {size : ℕ} (hsize : 0 < size) :
    Sound (step (.listed size) s) := by
  cases hphase : s.task.phase with
  | listing token =>
    have ha := h.ahead
    simp only [Ahead,hphase] at ha
    have hbelow := h.below
    simp only [reached,scheduled,nextToken,hphase,List.append_nil] at hbelow
    have hasc := h.ascending
    simp only [reached,scheduled,hphase,List.append_nil] at hasc
    have hpage : ∀ k ∈ oldKeys s.task.cutoff token size s.bucket,
        k ∈ Paging.page token size s.bucket.keys ∧ s.bucket.lastModified k < s.task.cutoff := by
      intro k hk
      simpa [oldKeys] using hk
    have hold : (oldKeys s.task.cutoff token size s.bucket).SortedLT :=
      ((Paging.page_sortedLT h.sorted).pairwise.filter _).sortedLT
    simp only [step,hphase]
    apply Resumable.sound
    refine ⟨h.sorted,?_,fun k hk _ => (hpage k hk).2,h.met,h.counted,?_,?_⟩
    · intro k hk hlt
      have hafter : k ∈ Paging.after token s.bucket.keys :=
        Paging.mem_after.mpr ⟨hk,ha k hk hlt⟩
      cases hnext : Paging.next token size s.bucket.keys with
      | none =>
        rw [← Paging.page_of_next_none hsize hnext] at hafter
        exact Or.inl (List.mem_filter.mpr ⟨hafter,by simpa using hlt⟩)
      | some c =>
        rw [Paging.page_append_after h.sorted hnext,List.mem_append] at hafter
        rcases hafter with hmem | hmem
        · exact Or.inl (List.mem_filter.mpr ⟨hmem,by simpa using hlt⟩)
        · exact Or.inr ⟨c,rfl,(Paging.mem_after.mp hmem).2 c rfl⟩
    · refine (List.pairwise_append.mpr ⟨hasc.pairwise,hold.pairwise,?_⟩).sortedLT
      intro a ha' b hb
      have hb' := (Paging.mem_page (hpage b hb).1).2
      cases token with
      | some c => exact (hbelow a ha' c rfl).trans_lt (hb' c rfl)
      | none =>
        rw [h.start hphase] at ha'
        exact absurd ha' List.not_mem_nil
    · intro k hk c hc
      have hnext : Paging.next token size s.bucket.keys = some c := hc
      obtain ⟨init,hinit⟩ := (Paging.page_of_next_some hnext).2
      rcases List.mem_append.mp hk with hgone | hold'
      · have hc' := (Paging.mem_page (Paging.mem_page_of_next_some hnext)).2
        cases token with
        | some d => exact (hbelow k hgone d rfl).trans (hc' d rfl).le
        | none =>
          rw [h.start hphase] at hgone
          exact absurd hgone List.not_mem_nil
      · have hmem := (hpage k hold').1
        have hpaged : (Paging.page token size s.bucket.keys).SortedLT :=
          Paging.page_sortedLT h.sorted
        have hsorted := hpaged.pairwise
        rw [hinit] at hmem hsorted
        rcases List.mem_append.mp hmem with hmem | hmem
        · exact ((List.pairwise_append.mp hsorted).2.2 k hmem c (List.mem_singleton.mpr rfl)).le
        · exact (List.mem_singleton.mp hmem).le
  | _ => simpa [step,hphase] using h

theorem sound_deleted {s : BackupStore K} (h : Sound s) : Sound (step .deleted s) := by
  cases hphase : s.task.phase with
  | deleting key rest token =>
    have ha := h.ahead
    simp only [Ahead,hphase] at ha
    have hreached : s.reached = s.removed.map Prod.fst ++ key :: rest := by
      simp [reached,scheduled,hphase]
    have hscheduled : s.scheduled = key :: rest := by simp [scheduled,hphase]
    have hexpired := h.expired
    rw [hscheduled] at hexpired
    have hasc := h.ascending
    have hbelow := h.below
    rw [hreached] at hasc hbelow
    simp only [nextToken,hphase] at hbelow
    let m : BackupStore K := { s with
      bucket := s.bucket.remove key
      task := { s.task with deleted := s.task.deleted+1 }
      removed := s.removed ++ [(key,s.bucket.modifiedAt key)] }
    have hstep : step .deleted s = { m with task := m.task.goOn rest token } := by
      simp [step,hphase,m]
    rw [hstep]
    apply Resumable.sound
    refine ⟨sortedLT_remove h.sorted key,?_,?_,?_,?_,?_,?_⟩
    · intro k hk hlt
      obtain ⟨hk,hne⟩ := mem_remove.mp hk
      rcases ha k hk hlt with hmem | hbehind
      · exact Or.inl ((List.mem_cons.mp hmem).resolve_left hne)
      · exact Or.inr hbehind
    · intro k hk hmem
      exact hexpired k (List.mem_cons_of_mem _ hk) (mem_remove.mp hmem).1
    · intro k m hm t ht
      rcases List.mem_append.mp hm with hm | hm
      · exact h.met k m hm t ht
      · obtain ⟨rfl,rfl⟩ := Prod.mk.inj (List.mem_singleton.mp hm)
        obtain ⟨hin,rfl⟩ := modifiedAt_eq_some.mp ht
        exact hexpired k List.mem_cons_self hin
    · simpa [m] using h.counted
    · simpa [m] using hasc
    · simpa [m] using hbelow
  | _ => simpa [step,hphase] using h

theorem sound_dumped {s : BackupStore K} (h : Sound s) (sizeBytes : ℕ) :
    Sound (step (.dumped sizeBytes) s) := by
  cases hphase : s.task.phase with
  | dumping =>
    have hremoved : s.removed = [] := h.first (by simp [pruning,hphase]) (by simp [hphase])
    simp only [step,hphase]
    refine ⟨h.sorted,trivial,?_,h.met,h.counted,?_,?_,fun _ _ => hremoved,?_,?_⟩
    · intro k hk
      exact absurd hk List.not_mem_nil
    · simp [reached,scheduled,hremoved,List.sortedLT_iff_pairwise]
    · intro k _ c hc
      cases hc
    · intro hp
      cases hp
    · intro result hp
      cases hp
  | _ => simpa [step,hphase] using h

theorem sound_failed {s : BackupStore K} (h : Sound s) :
    Sound { s with task := { s.task with phase := .failed } } := by
  have hasc := h.ascending.pairwise
  rw [reached,List.pairwise_append] at hasc
  refine ⟨h.sorted,trivial,?_,h.met,h.counted,?_,?_,?_,?_,?_⟩
  · intro k hk
    exact absurd hk List.not_mem_nil
  · rw [reached,scheduled,List.append_nil]
    exact hasc.1.sortedLT
  · intro k _ c hc
    cases hc
  · intro _ hne
    exact absurd rfl hne
  · intro hp
    cases hp
  · intro result hp
    cases hp

theorem sound_rejected {s : BackupStore K} (h : Sound s) : Sound (step .rejected s) := by
  cases hphase : s.task.phase with
  | completed result => simpa [step,hphase] using h
  | _ =>
    simp only [step,hphase]
    exact sound_failed h

theorem step_sound {s : BackupStore K} (h : Sound s) {ev : BackupEvent K} (hg : Orderly s ev) :
    Sound (step ev s) := by
  cases ev with
  | put key time => exact sound_put h hg
  | remove key => exact sound_remove h key
  | dumped sizeBytes => exact sound_dumped h sizeBytes
  | uploaded time now => exact sound_uploaded h time now
  | listed size => exact sound_listed h hg
  | deleted => exact sound_deleted h
  | rejected => exact sound_rejected h

def begun (retentionDays : ℤ) (bucket : Bucket K) (key : K) : BackupStore K :=
  { retentionDays := retentionDays, bucket := bucket, task := { key := key } }

theorem sound_begun {retentionDays : ℤ} {bucket : Bucket K} {key : K}
    (h : bucket.keys.SortedLT) : Sound (begun retentionDays bucket key) := by
  refine ⟨h,trivial,?_,?_,rfl,?_,?_,fun _ _ => rfl,?_,?_⟩
  · intro k hk
    exact absurd hk List.not_mem_nil
  · intro k m hm
    exact absurd hm List.not_mem_nil
  · simp [reached,scheduled,begun,List.sortedLT_iff_pairwise]
  · intro k _ c hc
    cases hc
  · intro hp
    cases hp
  · intro result hp
    cases hp

omit [LinearOrder K] in
@[simp] theorem goOn_key (t : BackupTask K) (old : List K) (token : Option K) :
    (t.goOn old token).key = t.key := by
  cases old with
  | cons => rfl
  | nil => cases token <;> rfl

omit [LinearOrder K] in
@[simp] theorem goOn_cutoff (t : BackupTask K) (old : List K) (token : Option K) :
    (t.goOn old token).cutoff = t.cutoff := by
  cases old with
  | cons => rfl
  | nil => cases token <;> rfl

theorem step_key (ev : BackupEvent K) (s : BackupStore K) : (step ev s).task.key = s.task.key := by
  cases ev with
  | put => rfl
  | remove => rfl
  | _ => cases hphase : s.task.phase <;> simp [step,hphase]

def Uploads (s : BackupStore K) (ev : BackupEvent K) : Prop :=
  s.task.phase = .uploading ∧ ∃ time now, ev = .uploaded time now

theorem step_cutoff (s : BackupStore K) {ev : BackupEvent K} (h : ¬ Uploads s ev) :
    (step ev s).task.cutoff = s.task.cutoff := by
  cases ev with
  | uploaded time now =>
    cases hphase : s.task.phase with
    | uploading => exact absurd ⟨hphase,time,now,rfl⟩ h
    | _ => simp [step,hphase]
  | put => rfl
  | remove => rfl
  | _ => cases hphase : s.task.phase <;> simp [step,hphase]

theorem step_pruning (s : BackupStore K) {ev : BackupEvent K} (h : ¬ Uploads s ev)
    (hp : (step ev s).pruning = true) : s.pruning = true := by
  cases ev with
  | uploaded time now =>
    cases hphase : s.task.phase with
    | uploading => exact absurd ⟨hphase,time,now,rfl⟩ h
    | _ => simpa [step,hphase] using hp
  | put => exact hp
  | remove => exact hp
  | _ => cases hphase : s.task.phase <;> simp_all [step,pruning]

theorem step_removed (s : BackupStore K) (ev : BackupEvent K) (hp : s.pruning = false) :
    (step ev s).removed = s.removed := by
  cases ev with
  | put => rfl
  | remove => rfl
  | _ => cases hphase : s.task.phase <;> simp_all [step,pruning]

def Kept (s : BackupStore K) : Prop :=
  s.task.key ∈ s.bucket.keys ∧ s.task.cutoff ≤ s.bucket.lastModified s.task.key

theorem kept_put {s : BackupStore K} (hkept : Kept s) {key : K} {time : ℤ}
    (ht : s.task.cutoff ≤ time) : Kept (step (.put key time) s) := by
  refine ⟨Paging.mem_insertNew.mpr (Or.inr hkept.1),?_⟩
  change s.task.cutoff ≤ Function.update s.bucket.lastModified key time s.task.key
  by_cases hk : s.task.key = key
  · rw [hk,Function.update_self]
    exact ht
  · rw [Function.update_of_ne hk]
    exact hkept.2

theorem kept_deleted {s : BackupStore K} (h : Sound s) (hkept : Kept s) :
    Kept (step .deleted s) := by
  cases hphase : s.task.phase with
  | deleting key rest token =>
    have hne : s.task.key ≠ key := by
      rintro rfl
      have hlt := h.expired s.task.key (by simp [scheduled,hphase]) hkept.1
      exact absurd hkept.2 (not_le.mpr hlt)
    simp only [step,hphase,Kept,goOn_key,goOn_cutoff]
    exact ⟨mem_remove.mpr ⟨hkept.1,hne⟩,hkept.2⟩
  | _ => simpa [step,hphase] using hkept

theorem step_kept {s : BackupStore K} (h : Sound s) (hp : s.pruning = true) (hkept : Kept s)
    {ev : BackupEvent K} (hg : Orderly s ev) : Kept (step ev s) := by
  cases ev with
  | put key time => exact kept_put hkept (hg hp).1
  | remove key => exact ⟨mem_remove.mpr ⟨hkept.1,hg.symm⟩,hkept.2⟩
  | deleted => exact kept_deleted h hkept
  | _ => cases hphase : s.task.phase <;> simp_all [step,pruning,Kept]

theorem kept_uploaded {s : BackupStore K} (hphase : s.task.phase = .uploading) {time now : ℤ}
    (ht : now-s.retentionDays*millisPerDay ≤ time) : Kept (step (.uploaded time now) s) := by
  simp only [step,hphase]
  refine ⟨Paging.mem_insertNew.mpr (Or.inl rfl),?_⟩
  change now-s.retentionDays*millisPerDay ≤
    Function.update s.bucket.lastModified s.task.key time s.task.key
  rw [Function.update_self]
  exact ht

theorem step_retentionDays (ev : BackupEvent K) (s : BackupStore K) :
    (step ev s).retentionDays = s.retentionDays := by
  cases ev with
  | put => rfl
  | remove => rfl
  | _ => cases hphase : s.task.phase <;> simp [step,hphase]

theorem run_sound {retentionDays : ℤ} {bucket : Bucket K} {key : K} {events : List (BackupEvent K)}
    (hb : bucket.keys.SortedLT)
    (ha : Runs.Along step Orderly (begun retentionDays bucket key) events) :
    Sound (run events (begun retentionDays bucket key)) ∧
      (run events (begun retentionDays bucket key)).task.key = key ∧
      (run events (begun retentionDays bucket key)).retentionDays = retentionDays := by
  have hstep : ∀ (s : BackupStore K) ev,
      Sound s ∧ s.task.key = key ∧ s.retentionDays = retentionDays → Orderly s ev →
      Sound (step ev s) ∧ (step ev s).task.key = key ∧
        (step ev s).retentionDays = retentionDays :=
    fun s ev h hg => ⟨step_sound h.1 hg,(step_key ev s).trans h.2.1,
      (step_retentionDays ev s).trans h.2.2⟩
  exact ha.invariant hstep ⟨sound_begun hb,rfl,rfl⟩

theorem idle_of_not_uploads {s : BackupStore K} {events : List (BackupEvent K)}
    (h : Runs.Along step (fun s ev => ¬ Uploads s ev) s events) (hp : s.pruning = false)
    (hr : s.removed = []) :
    (run events s).pruning = false ∧ (run events s).removed = [] := by
  have hstep : ∀ (s : BackupStore K) ev, s.pruning = false ∧ s.removed = [] → ¬ Uploads s ev →
      (step ev s).pruning = false ∧ (step ev s).removed = [] := by
    intro s ev hs hn
    refine ⟨?_,(step_removed s ev hs.1).trans hs.2⟩
    by_contra hpruning
    rw [Bool.not_eq_false] at hpruning
    rw [step_pruning s hn hpruning] at hs
    cases hs.1
  exact h.invariant hstep ⟨hp,hr⟩

/-- A backup that was not old when it was stored stays while the job is in its loops. -/
theorem run_kept {s : BackupStore K} {events : List (BackupEvent K)} (h : Sound s) (hkept : Kept s)
    (ha : Runs.Along step Orderly s events)
    (hn : Runs.Along step (fun s ev => ¬ Uploads s ev) s events)
    (hp : (run events s).pruning = true) : Kept (run events s) := by
  have hstep : ∀ (s : BackupStore K) ev, Sound s ∧ (s.pruning = true → Kept s) →
      Orderly s ev ∧ ¬ Uploads s ev →
      Sound (step ev s) ∧ ((step ev s).pruning = true → Kept (step ev s)) := by
    intro s ev hs hg
    refine ⟨step_sound hs.1 hg.1,fun hpruning => ?_⟩
    have hp := step_pruning s hg.2 hpruning
    exact step_kept hs.1 hp (hs.2 hp) hg.1
  exact ((ha.and hn).invariant hstep ⟨h,fun _ => hkept⟩).2 hp

/-- The upload was answered in the run: the store has dated the backup, and the clock of the job
has told the time. -/
def UploadedAt (s : BackupStore K) (events : List (BackupEvent K)) (time now : ℤ) : Prop :=
  ∃ before after, events = before ++ .uploaded time now :: after ∧
    (run before s).task.phase = .uploading

/-- Whatever other servers put and remove meanwhile, the job deletes nothing before its upload is
answered, and then only objects older than the retention, and each key once; and when it completes,
every object in the bucket is within the retention, its own backup is there if it was stored
within the retention, and the number it tells is that of its deletions. -/
theorem run_keeps_retention {retentionDays : ℤ} {bucket : Bucket K} {key : K}
    {events : List (BackupEvent K)} (hb : bucket.keys.SortedLT)
    (ha : Runs.Along step Orderly (begun retentionDays bucket key) events) {s : BackupStore K}
    (hs : run events (begun retentionDays bucket key) = s) :
    s.pruning = false ∧ s.removed = [] ∨
      ∃ time now, UploadedAt (begun retentionDays bucket key) events time now ∧
        (∀ k t, (k,some t) ∈ s.removed → t < now-retentionDays*millisPerDay) ∧
        (s.removed.map Prod.fst).Nodup ∧
        ∀ result, s.task.phase = .completed result →
          result.key = key ∧ result.deletedCount = s.removed.length ∧
          (∀ k ∈ s.bucket.keys, now-retentionDays*millisPerDay ≤ s.bucket.lastModified k) ∧
          (now-retentionDays*millisPerDay ≤ time → key ∈ s.bucket.keys) := by
  obtain ⟨h,hkey,-⟩ := run_sound hb ha
  have hkeep : ∀ (s : BackupStore K) ev, ¬ Uploads s ev →
      (step ev s).task.cutoff = s.task.cutoff := fun s _ hn => step_cutoff s hn
  rcases Runs.last_writer step (fun s => s.task.cutoff) hkeep (begun retentionDays bucket key)
      events with
    ⟨hnone,-⟩ | ⟨before,ev,after,rfl,⟨hphase,time,now,rfl⟩,hrest,hcutoff⟩
  · rw [← hs]
    exact Or.inl (idle_of_not_uploads hnone rfl rfl)
  · obtain ⟨habefore,hbetween,haafter⟩ := Runs.along_append.mp ha
    obtain ⟨hbefore,-,hdays⟩ := run_sound hb habefore
    rw [run] at hdays hbefore
    have hcut : s.task.cutoff = now-retentionDays*millisPerDay := by
      rw [← hs]
      refine hcutoff.trans ?_
      simp only [step,hphase,hdays]
    have hrun : run after (step (.uploaded time now)
        (Runs.run step before (begun retentionDays bucket key))) = s := by
      rw [← hs,run,run,Runs.run_append,Runs.run_cons]
    rw [hs] at h hkey
    refine Or.inr ⟨time,now,⟨before,after,rfl,hphase⟩,?_,?_,?_⟩
    · intro k t hm
      rw [← hcut]
      exact h.met k _ hm t rfl
    · have hasc := h.ascending.nodup
      rw [reached,List.nodup_append] at hasc
      exact hasc.1
    · intro result hcompleted
      obtain ⟨hresult,hcount⟩ := h.told result hcompleted
      have hahead := h.ahead
      simp only [Ahead,hcompleted] at hahead
      refine ⟨hresult.trans hkey,hcount.trans h.counted,fun k hk => hcut ▸ hahead k hk,?_⟩
      intro ht
      have hkept : Kept (run after (step (.uploaded time now)
          (Runs.run step before (begun retentionDays bucket key)))) := by
        refine run_kept (sound_uploaded hbefore time now) (kept_uploaded hphase ?_) haafter hrest ?_
        · rw [hdays]
          exact ht
        · rw [hrun]
          simp [pruning,hcompleted]
      rw [hrun] at hkept
      rw [← hkey]
      exact hkept.1

/-- Another server puts its backup between the page and the deletion. -/
def nightlyBackup : List (BackupEvent ℕ) :=
  [.dumped 100,.uploaded 5000000000 5000000000,.listed 1,.put 7 4000000000,.deleted,.listed 5]

def twoBackups : Bucket ℕ := ⟨[1,5],fun k => if k = 5 then 3000000000 else 0⟩

theorem run_keeps_retention_nightly :
    (run nightlyBackup (begun 30 twoBackups 9)).removed = [(1,some 0)] ∧
      (run nightlyBackup (begun 30 twoBackups 9)).bucket.keys = [5,7,9] ∧
      ∃ time now, UploadedAt (begun 30 twoBackups 9) nightlyBackup time now ∧
        ∀ k t, (k,some t) ∈ (run nightlyBackup (begun 30 twoBackups 9)).removed →
          t < now-30*millisPerDay := by
  have ha : Runs.Along step Orderly (begun 30 twoBackups 9) nightlyBackup :=
    ⟨trivial,trivial,by decide,by decide,trivial,by decide,trivial⟩
  refine ⟨by decide,by decide,?_⟩
  rcases run_keeps_retention (by decide) ha rfl with ⟨hp,-⟩ | ⟨time,now,hup,hold,-⟩
  · exact absurd hp (by decide)
  · exact ⟨time,now,hup,hold⟩

section Termination

def answer (size : ℕ) (s : BackupStore K) : BackupEvent K :=
  match s.task.phase with
  | .listing _ => .listed size
  | _ => .deleted

/-- How many answers the loops still need at most. -/
def remaining (s : BackupStore K) : ℕ :=
  match s.task.phase with
  | .listing token => 2*(Paging.after token s.bucket.keys).length+1
  | .deleting _ rest (some c) => rest.length+1+(2*(Paging.after (some c) s.bucket.keys).length+1)
  | .deleting _ rest none => rest.length+1
  | _ => 0

/-- What the answers count to once the job goes on. -/
def stretch (keys old : List K) : Option K → ℕ
  | some c => old.length+(2*(Paging.after (some c) keys).length+1)
  | none => old.length

theorem remaining_goOn (s : BackupStore K) (old : List K) (token : Option K) :
    remaining { s with task := s.task.goOn old token } = stretch s.bucket.keys old token := by
  cases old with
  | cons key rest => cases token <;> rfl
  | nil => cases token with
    | some c => simp [remaining,BackupTask.goOn,stretch]
    | none => rfl

theorem stretch_mono {keys keys' old : List K} (token : Option K) (h : keys'.Sublist keys) :
    stretch keys' old token ≤ stretch keys old token := by
  cases token with
  | none => exact le_refl _
  | some c =>
    have hlen : (Paging.after (some c) keys').length ≤ (Paging.after (some c) keys).length :=
      (h.filter _).length_le
    simp only [stretch]
    omega

/-- Every answer brings the end of the loops nearer. -/
theorem remaining_lt {s : BackupStore K} (h : s.bucket.keys.SortedLT) {size : ℕ} (hsize : 0 < size)
    (hopen : remaining s ≠ 0) : remaining (step (answer size s) s) < remaining s := by
  cases hphase : s.task.phase with
  | listing token =>
    have hold : (oldKeys s.task.cutoff token size s.bucket).length ≤
        (Paging.page token size s.bucket.keys).length := List.length_filter_le _ _
    simp only [answer,hphase,step]
    rw [remaining_goOn]
    simp only [remaining,hphase]
    cases hnext : Paging.next token size s.bucket.keys with
    | none =>
      rw [Paging.page_of_next_none hsize hnext] at hold
      simp only [stretch]
      omega
    | some c =>
      have hlen := congrArg List.length (Paging.page_append_after h hnext)
      have hfull := (Paging.page_of_next_some hnext).1
      rw [List.length_append] at hlen
      simp only [stretch]
      omega
  | deleting key rest token =>
    let m : BackupStore K := { s with
      bucket := s.bucket.remove key
      task := { s.task with deleted := s.task.deleted+1 }
      removed := s.removed ++ [(key,s.bucket.modifiedAt key)] }
    have hstep : step (answer size s) s = { m with task := m.task.goOn rest token } := by
      simp [answer,step,hphase,m]
    have hle : stretch m.bucket.keys rest token ≤ stretch s.bucket.keys rest token :=
      stretch_mono token List.filter_sublist
    rw [hstep,remaining_goOn]
    cases token with
    | some c =>
      simp only [remaining,hphase]
      simp only [stretch] at hle ⊢
      omega
    | none =>
      simp only [remaining,hphase]
      simp only [stretch] at hle ⊢
      omega
  | _ => exact absurd (by simp [remaining,hphase]) hopen

theorem step_answer {s : BackupStore K} (h : s.bucket.keys.SortedLT) (hp : s.pruning = true)
    (size : ℕ) : (step (answer size s) s).bucket.keys.SortedLT ∧
      (step (answer size s) s).pruning = true := by
  have hgoOn : ∀ (m : BackupStore K) old token,
      pruning { m with task := m.task.goOn old token } = true := by
    intro m old token
    cases old with
    | cons => rfl
    | nil => cases token <;> rfl
  cases hphase : s.task.phase with
  | listing token =>
    simp only [answer,hphase,step]
    exact ⟨h,hgoOn _ _ _⟩
  | deleting key rest token =>
    simp only [answer,hphase,step]
    exact ⟨sortedLT_remove h key,hgoOn { s with task := _ } _ _⟩
  | completed result => simpa [answer,hphase,step] using ⟨h,hp⟩
  | _ => simp [pruning,hphase] at hp

theorem completed_of_remaining {s : BackupStore K} (hp : s.pruning = true)
    (h0 : remaining s = 0) : ∃ result, s.task.phase = .completed result := by
  cases hphase : s.task.phase with
  | completed result => exact ⟨result,rfl⟩
  | listing token => simp [remaining,hphase] at h0
  | deleting key rest token => cases token <;> simp [remaining,hphase] at h0
  | _ => simp [pruning,hphase] at hp

/-- The first answers to the job; the `i`th of them holds `sizes i` keys if it is a page. -/
def answered (sizes : ℕ → ℕ) : ℕ → BackupStore K → BackupStore K
  | 0, s => s
  | n+1, s => answered (fun i => sizes (i+1)) n (step (answer (sizes 0) s) s)

theorem answered_ends {n : ℕ} {s : BackupStore K} (h : s.bucket.keys.SortedLT)
    (hp : s.pruning = true) {sizes : ℕ → ℕ} (hsizes : ∀ i, 0 < sizes i) (hn : remaining s ≤ n) :
    ∃ m ≤ n, ∃ result, (answered sizes m s).task.phase = .completed result := by
  induction n generalizing s sizes with
  | zero => exact ⟨0,le_refl 0,completed_of_remaining hp (Nat.le_zero.mp hn)⟩
  | succ n ih =>
    by_cases h0 : remaining s = 0
    · exact ⟨0,Nat.zero_le _,completed_of_remaining hp h0⟩
    · have hlt := remaining_lt h (hsizes 0) h0
      obtain ⟨hs',hp'⟩ := step_answer h hp (sizes 0)
      obtain ⟨m,hm,hr⟩ := ih hs' hp' (fun i => hsizes (i+1)) (by omega)
      exact ⟨m+1,by omega,hr⟩

/-- Left alone with a bucket of `n` objects, the loops end after at most `2 n + 1` answers,
however many keys the service puts on each page. -/
theorem prune_ends {s : BackupStore K} (h : s.bucket.keys.SortedLT)
    (hphase : s.task.phase = .listing none) {sizes : ℕ → ℕ} (hsizes : ∀ i, 0 < sizes i) :
    ∃ n ≤ 2*s.bucket.keys.length+1, ∃ result,
      (answered sizes n s).task.phase = .completed result := by
  apply answered_ends h ?_ hsizes
  · simp [remaining,hphase,Paging.after]
  · simp [pruning,hphase]

/-- The bucket with the new backup in it, before the first page is asked for. -/
def uploadedBackup : BackupStore ℕ :=
  run [.dumped 100,.uploaded 5000000000 5000000000] (begun 30 twoBackups 9)

theorem prune_ends_nightly : ∃ n ≤ 2*uploadedBackup.bucket.keys.length+1, ∃ result,
    (answered (fun i => i+1) n uploadedBackup).task.phase = .completed result :=
  prune_ends (by decide) rfl Nat.succ_pos

end Termination

end BackupStore

end YieldVault.Backend
