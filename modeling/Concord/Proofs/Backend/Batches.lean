import Concord.Proofs.Backend.Announcements
import Concord.Proofs.HashTree.Unflagged

/-! What a batch does to the objects of a backend in memory. Every resource acts on the object at
its own key, unless pushes of that key are dropped, and twice is as good as once, so a batch acts
key by key.
-/

namespace Concord.Memory

/-- No pushes are dropped, and no key is flagged. -/
structure Calm (m : Memory) : Prop where
  failing : m.failing = ∅
  errors : m.errors = ∅

/-- What a deletion leaves of an object. -/
def deleted (kind : TreeKind) (marker : Bool) (o : StoredObject) : Option StoredObject :=
  if marker then some { o with owner := .released }
  else
    match kind with
    | .operational => some { o with observed := ∅ }
    | .config | .monitored => none

/-- What a creation makes of an object. -/
def created (kind : TreeKind) (attributes : Attributes) (o : StoredObject) : StoredObject :=
  match kind with
  | .config => { o with owner := .local, attributes }
  | .monitored => { o with owner := .remote, attributes }
  | .operational => { o with observed := attributes }

/-- The pushes of just these keys are dropped, and no key is flagged. -/
structure Dropping (m : Memory) (dropped : KeySet) : Prop where
  failing : m.failing = dropped
  errors : m.errors = ∅

variable {m : Memory} {kind : TreeKind} {dropped : KeySet}

theorem Calm.dropping (h : m.Calm) : m.Dropping ∅ :=
  ⟨h.failing, h.errors⟩

theorem Dropping.calm (h : m.Dropping ∅) : m.Calm :=
  ⟨h.failing, h.errors⟩

theorem Dropping.write (h : m.Dropping dropped) (key : Key) (object : Option StoredObject)
    : (m.write key object).Dropping dropped where
  failing := h.failing
  errors := by
    cases object with
    | none =>
        simp only [Memory.write, h.errors]
        rfl
    | some o => exact h.errors

theorem dropping_applyDelete (h : m.Dropping dropped) (r : Resource)
    : (applyDelete kind m r).Dropping dropped := by
  rw [applyDelete]
  split
  · exact h
  · split
    · exact h
    · split
      · exact h.write _ _
      · cases kind <;> exact h.write _ _

/-- What a step leaves at a key where pushes may be dropped. -/
def unlessDropped (dropped : KeySet) (f : Key → Option StoredObject → Option StoredObject) (k : Key)
    (o : Option StoredObject) : Option StoredObject :=
  if dropped.contains k then o else f k o

theorem unlessDropped_idem {f : Key → Option StoredObject → Option StoredObject}
    (idempotent : ∀ k o, f k (f k o) = f k o) (k : Key) (o : Option StoredObject)
    : unlessDropped dropped f k (unlessDropped dropped f k o) = unlessDropped dropped f k o := by
  simp only [unlessDropped]
  split
  · rfl
  · exact idempotent k o

theorem objects_applyDelete (h : m.Dropping dropped) (r : Resource) (k : Key)
    : (applyDelete kind m r).objects[k]?
      = if k = r.key then
          unlessDropped dropped (fun _ o => o.bind (deleted kind r.ownershipMarker)) k m.objects[k]?
        else m.objects[k]? := by
  rw [applyDelete, h.failing]
  cases drops : dropped.contains r.key with
  | true =>
      rw [if_pos rfl, unlessDropped]
      split
      · rename_i hk
        rw [hk, if_pos drops]
      · rfl
  | false =>
      rw [if_neg Bool.false_ne_true]
      have passes (o : Option StoredObject)
          : unlessDropped dropped (fun _ o => o.bind (deleted kind r.ownershipMarker)) r.key o
            = o.bind (deleted kind r.ownershipMarker) :=
        if_neg (by simp [drops])
      cases ho : m.objects[r.key]? with
      | none =>
          dsimp only
          split
          · rename_i hk
            rw [hk, passes, ho]
            rfl
          · rfl
      | some o =>
          dsimp only
          split
          · rename_i marker
            rw [insert, objects_write]
            split
            · rename_i hk
              rw [hk, passes, ho]
              simp [deleted, marker]
            · rfl
          · rename_i marker
            cases kind <;> simp only [insert, delete, objects_write] <;> split <;>
              simp_all [deleted]

theorem dropping_applyCreate (h : m.Dropping dropped) (r : Resource)
    : (applyCreate kind m r).Dropping dropped := by
  rw [applyCreate]
  split
  · exact h
  · cases kind <;> exact h.write _ _

theorem objects_applyCreate (h : m.Dropping dropped) (r : Resource) (k : Key)
    : (applyCreate kind m r).objects[k]?
      = if k = r.key then
          unlessDropped dropped (fun _ o => some (created kind r.attributes (o.getD {}))) k
            m.objects[k]?
        else m.objects[k]? := by
  rw [applyCreate, h.failing, unlessDropped]
  cases drops : dropped.contains r.key with
  | true =>
      rw [if_pos rfl]
      split
      · rename_i hk
        rw [hk, if_pos drops]
      · rfl
  | false =>
      rw [if_neg Bool.false_ne_true]
      cases kind <;> simp only [insert, objects_write] <;> split <;> simp_all [created]

/-- Steps that each act on one key, in a way that twice is as good as once, act on all their keys
together, by list induction.
-/
theorem objects_foldl {α : Type} {f : Memory → α → Memory} (key : α → Key)
    (g : Key → Option StoredObject → Option StoredObject)
    (idempotent : ∀ k o, g k (g k o) = g k o) {l : List α}
    (step : ∀ m a, a ∈ l → m.Dropping dropped → (f m a).Dropping dropped
      ∧ ∀ k, (f m a).objects[k]? = if k = key a then g k m.objects[k]? else m.objects[k]?)
    (h : m.Dropping dropped)
    : (l.foldl f m).Dropping dropped
      ∧ ∀ k, (l.foldl f m).objects[k]?
          = if k ∈ l.map key then g k m.objects[k]? else m.objects[k]? := by
  induction l generalizing m with
  | nil => exact ⟨h, fun k => by simp⟩
  | cons a rest ih =>
      obtain ⟨left, objects⟩ := step m a List.mem_cons_self h
      obtain ⟨left', objects'⟩ := ih (fun m b hb => step m b (List.mem_cons_of_mem _ hb)) left
      refine ⟨left', fun k => ?_⟩
      rw [List.foldl_cons, objects', objects]
      by_cases hk : k = key a
      · subst hk
        by_cases hr : key a ∈ rest.map key
        · rw [if_pos hr, if_pos rfl, if_pos (by simp), idempotent]
        · rw [if_neg hr, if_pos rfl, if_pos (by simp)]
      · simp [hk]

-----------------------------------------------------------------------------------------
-- Batches from fetched resources
-----------------------------------------------------------------------------------------

theorem mem_fetch {store : Memory} {keys : List Key} {r : Resource}
    (h : r ∈ store.fetch kind keys)
    : r.key ∈ keys ∧ (store.objects[r.key]?).bind (·.projection? kind) = some r.attributes := by
  obtain ⟨key, hk, hr⟩ := List.mem_filterMap.mp h
  obtain ⟨attributes, ha, rfl⟩ := Option.map_eq_some_iff.mp hr
  exact ⟨hk, ha⟩

theorem mem_keys_fetch {store : Memory} {keys : List Key} {k : Key}
    : k ∈ (store.fetch kind keys).map Resource.key
      ↔ k ∈ keys ∧ ((store.objects[k]?).bind (·.projection? kind)).isSome := by
  constructor
  · intro h
    obtain ⟨r, hr, rfl⟩ := List.mem_map.mp h
    obtain ⟨hk, ha⟩ := mem_fetch hr
    exact ⟨hk, by rw [ha]; rfl⟩
  · intro h
    obtain ⟨hk, ha⟩ := h
    obtain ⟨attributes, ha⟩ := Option.isSome_iff_exists.mp ha
    exact List.mem_map.mpr ⟨Resource.ofKey k attributes,
      List.mem_filterMap.mpr ⟨k, hk, by rw [ha]; rfl⟩, rfl⟩

/-- Where all keys are shown there is a resource for each of them. -/
theorem keys_fetch {store : Memory} {keys : List Key}
    (shown : ∀ k ∈ keys, ((store.objects[k]?).bind (·.projection? kind)).isSome)
    : (store.fetch kind keys).map Resource.key = keys := by
  rw [fetch, List.map_filterMap]
  refine (List.filterMap_congr fun k hk => ?_).trans List.filterMap_some
  obtain ⟨attributes, ha⟩ := Option.isSome_iff_exists.mp (shown k hk)
  rw [ha]
  rfl

/-- Whether a kind is deleted through ownership markers. -/
def marks : TreeKind → Bool
  | .monitored => true
  | .config | .operational => false

theorem fetchForDelete_spec {keys : List Key} {r : Resource}
    (h : r ∈ fetchForDelete kind keys)
    : r.ownershipMarker = marks kind := by
  obtain ⟨key, -, rfl⟩ := List.mem_map.mp h
  cases kind <;> rfl

theorem keys_fetchForDelete (kind : TreeKind) (keys : List Key)
    : (fetchForDelete kind keys).map Resource.key = keys := by
  rw [fetchForDelete, List.map_map]
  refine (List.map_congr_left fun key _ => ?_).trans (List.map_id keys)
  cases kind <;> rfl

/-- What is left at a key after deletions of a kind. -/
def afterDelete (kind : TreeKind) (removes : List Key) (k : Key) (o : Option StoredObject)
    : Option StoredObject :=
  if k ∈ removes then o.bind (deleted kind (marks kind)) else o

/-- What is there at a key after a store's objects were brought over. -/
def afterCreate (store : Memory) (kind : TreeKind) (adds : List Key) (k : Key)
    (o : Option StoredObject) : Option StoredObject :=
  if k ∈ adds then
    match (store.objects[k]?).bind (·.projection? kind) with
    | some attributes => some (created kind attributes (o.getD {}))
    | none => o
  else o

theorem objects_deletes (h : m.Dropping dropped) (removes : List Key)
    : ((fetchForDelete kind removes).foldl (applyDelete kind) m).Dropping dropped
      ∧ ∀ k, ((fetchForDelete kind removes).foldl (applyDelete kind) m).objects[k]?
          = unlessDropped dropped (afterDelete kind removes) k m.objects[k]? := by
  have once (o : Option StoredObject)
      : (o.bind (deleted kind (marks kind))).bind (deleted kind (marks kind))
        = o.bind (deleted kind (marks kind)) := by
    cases o <;> cases kind <;> rfl
  obtain ⟨left, objects⟩ := objects_foldl Resource.key
    (unlessDropped dropped fun _ o => o.bind (deleted kind (marks kind)))
    (unlessDropped_idem fun _ o => once o)
    (f := applyDelete kind) (l := fetchForDelete kind removes)
    (fun m r hr hm => ⟨dropping_applyDelete hm r, fun k => by
      rw [objects_applyDelete hm, fetchForDelete_spec hr]⟩) h
  refine ⟨left, fun k => ?_⟩
  rw [objects, keys_fetchForDelete]
  simp only [unlessDropped, afterDelete]
  split <;> split <;> rfl

theorem objects_creates (store : Memory) (h : m.Dropping dropped) (adds : List Key)
    : ((store.fetch kind adds).foldl (applyCreate kind) m).Dropping dropped
      ∧ ∀ k, ((store.fetch kind adds).foldl (applyCreate kind) m).objects[k]?
          = unlessDropped dropped (afterCreate store kind adds) k m.objects[k]? := by
  let bring (k : Key) (o : Option StoredObject) : Option StoredObject :=
    match (store.objects[k]?).bind (·.projection? kind) with
    | some attributes => some (created kind attributes (o.getD {}))
    | none => o
  have once (k : Key) (o : Option StoredObject) : bring k (bring k o) = bring k o := by
    simp only [bring]
    cases (store.objects[k]?).bind (·.projection? kind) with
    | none => rfl
    | some attributes => cases kind <;> rfl
  obtain ⟨left, objects⟩ := objects_foldl Resource.key (unlessDropped dropped bring)
    (unlessDropped_idem once)
    (f := applyCreate kind) (l := store.fetch kind adds)
    (fun m r hr hm => ⟨dropping_applyCreate hm r, fun k => by
      rw [objects_applyCreate hm]
      split
      · rename_i hk
        simp only [unlessDropped, bring, hk, (mem_fetch hr).2]
      · rfl⟩) h
  refine ⟨left, fun k => ?_⟩
  rw [objects]
  simp only [mem_keys_fetch, unlessDropped, afterCreate, bring]
  cases hs : (store.objects[k]?).bind (·.projection? kind) <;> by_cases k ∈ adds <;> simp_all

/-- Whatever the batch, the same pushes are dropped after it, and no flag comes up. -/
theorem Dropping.push (h : m.Dropping dropped) (kind : TreeKind) (batch : ResourceBatch)
    : (m.push kind batch).Dropping dropped := by
  have counted : Dropping { m with pushes := m.pushes + 1 } dropped := ⟨h.failing, h.errors⟩
  have deleted := List.foldlRecOn (motive := fun m => m.Dropping dropped) batch.delete
    (applyDelete kind) counted fun _ h r _ => dropping_applyDelete h r
  exact List.foldlRecOn (motive := fun m => m.Dropping dropped) batch.create (applyCreate kind)
    deleted fun _ h r _ => dropping_applyCreate h r

/-- A batch of fetched resources deletes at some keys and then brings over what the store shows at
others. Where pushes are dropped it does nothing.
-/
theorem push_dropping (store : Memory) (h : m.Dropping dropped) (adds removes : List Key)
    : (m.push kind ⟨store.fetch kind adds, fetchForDelete kind removes⟩).Dropping dropped
      ∧ ∀ k, (m.push kind ⟨store.fetch kind adds, fetchForDelete kind removes⟩).objects[k]?
          = unlessDropped dropped
              (fun k o => afterCreate store kind adds k (afterDelete kind removes k o)) k
              m.objects[k]? := by
  have counted : Dropping { m with pushes := m.pushes + 1 } dropped := ⟨h.failing, h.errors⟩
  obtain ⟨left, deletes⟩ := @objects_deletes _ kind _ counted removes
  obtain ⟨left, creates⟩ := @objects_creates _ kind _ store left adds
  refine ⟨left, fun k => (creates k).trans ?_⟩
  rw [deletes k]
  simp only [unlessDropped]
  split <;> rfl

/-- A batch of fetched resources where no pushes are dropped. -/
theorem push_fetched (store : Memory) (h : m.Calm) (adds removes : List Key)
    : (m.push kind ⟨store.fetch kind adds, fetchForDelete kind removes⟩).Calm
      ∧ ∀ k, (m.push kind ⟨store.fetch kind adds, fetchForDelete kind removes⟩).objects[k]?
          = afterCreate store kind adds k (afterDelete kind removes k m.objects[k]?) := by
  obtain ⟨left, objects⟩ := @push_dropping _ kind _ store h.dropping adds removes
  exact ⟨left.calm, fun k => by simp [objects, unlessDropped]⟩

-----------------------------------------------------------------------------------------
-- Flags on a stream
-----------------------------------------------------------------------------------------

/-- No change of a flag is queued on the stream. -/
def Unmarked (m : Memory) (id : Nat) : Prop :=
  ∀ ch, m.channels.get? id = some ch → ∀ e ∈ ch.queue, e.flags = false

variable {id : Nat}

theorem flags_change? {key : Key} {old new : Option StoredObject} {e : TreeEvent}
    (h : change? key kind old new = some e)
    : e.flags = false := by
  rw [change?] at h
  split at h <;> split at h <;> cases h <;> rfl

/-- What a write announces is no flag. -/
theorem Unmarked.write (h : m.Unmarked id) (key : Key) (object : Option StoredObject)
    : (m.write key object).Unmarked id := by
  cases hr : key.root? with
  | none =>
      have quiet : (m.write key object).channels = m.channels := by
        simp [Memory.write, notify, hr]
      rwa [Unmarked, quiet]
  | some own =>
      have channels : (m.write key object).channels
          = m.channels.announce own fun kind => change? key kind m.objects[key]? object := by
        simp only [Memory.write, notify, hr]
        rfl
      intro ch found e listed
      rw [channels, Channels.get?_announce] at found
      obtain ⟨old, before, rfl⟩ := Option.map_eq_some_iff.mp found
      split at listed
      · rcases List.mem_append.mp listed with queued | sent
        · exact h old before e queued
        · exact flags_change? (Option.mem_toList.mp sent)
      · exact h old before e listed

/-- No batch flags anything. -/
theorem Unmarked.push (h : m.Unmarked id) (kind : TreeKind) (batch : ResourceBatch)
    : (m.push kind batch).Unmarked id := by
  have counted : Unmarked { m with pushes := m.pushes + 1 } id := h
  have delete (m : Memory) (h : m.Unmarked id) (r : Resource)
      : (applyDelete kind m r).Unmarked id := by
    rw [applyDelete]
    split
    · exact h
    · split
      · exact h
      · split
        · exact h.write _ _
        · cases kind <;> exact h.write _ _
  have create (m : Memory) (h : m.Unmarked id) (r : Resource)
      : (applyCreate kind m r).Unmarked id := by
    rw [applyCreate]
    split
    · exact h
    · cases kind <;> exact h.write _ _
  have deleted := List.foldlRecOn (motive := fun m => m.Unmarked id) batch.delete
    (applyDelete kind) counted fun m h r _ => delete m h r
  exact List.foldlRecOn (motive := fun m => m.Unmarked id) batch.create (applyCreate kind) deleted
    fun m h r _ => create m h r

end Concord.Memory
