import Concord.Proofs.Backend.Streams

/-! What a backend in memory queues when its objects change. Every mutation announces what it
does: played after whatever was queued before, the new changes lead to the new projection at a
key, or they say nothing of the key and its projection has stayed.
-/

namespace Concord

/-- What is left of the attributes at a key after a queue of changes. -/
def replay (queue : List TreeEvent) (k : Key) (v : Option Attributes) : Option Attributes :=
  queue.foldl (fun v e => e.effect k v) v

@[simp]
theorem replay_nil (k : Key) (v : Option Attributes) : replay [] k v = v :=
  rfl

theorem replay_cons (e : TreeEvent) (queue : List TreeEvent) (k : Key) (v : Option Attributes)
    : replay (e :: queue) k v = replay queue k (e.effect k v) :=
  rfl

theorem replay_append (queue more : List TreeEvent) (k : Key) (v : Option Attributes)
    : replay (queue ++ more) k v = replay more k (replay queue k v) :=
  List.foldl_append

namespace Memory

variable {m m' m'' : Memory} {id : Nat} {root : String} {kind : TreeKind}
  {queue : List TreeEvent}

/-- A stream of a root and kind that was not ended, with what is queued on it. -/
def Listens (m : Memory) (id : Nat) (root : String) (kind : TreeKind) (queue : List TreeEvent)
    : Prop :=
  m.channels.get? id = some { id, root, kind, queue }

/-- What a stream was given says where a key has got to: it leads there from anywhere, or it is
silent about the key, which has not moved.
-/
def Accounts (m m' : Memory) (root : String) (kind : TreeKind) (news : List TreeEvent) : Prop :=
  ∀ k, (m'.projected root kind k = m.projected root kind k ∧ ∀ v, replay news k v = v)
    ∨ ∀ v, replay news k v = m'.projected root kind k

/-- From one state to another every stream was given changes of its root that account for the
move, and no stream was opened.
-/
structure Announces (m m' : Memory) : Prop where
  nextId : m'.channels.nextId = m.channels.nextId
  absent : ∀ id, m.channels.get? id = none → m'.channels.get? id = none
  news : ∀ id root kind queue, m.Listens id root kind queue →
    ∃ news, m'.Listens id root kind (queue ++ news)
      ∧ (∀ e ∈ news, e.Fits root) ∧ m.Accounts m' root kind news

/-- Nothing has to be announced where objects and streams stay. -/
theorem announces_of_eq (ho : m'.objects = m.objects) (hc : m'.channels = m.channels)
    : m.Announces m' where
  nextId := by rw [hc]
  absent := fun id h => by rw [hc, h]
  news := fun id root kind queue h => by
    refine ⟨[], ?_, by simp, fun k => .inl ⟨?_, fun v => rfl⟩⟩
    · rw [List.append_nil, Listens, hc]
      exact h
    · exact projected_congr ho

theorem Announces.refl (m : Memory) : m.Announces m :=
  announces_of_eq rfl rfl

/-- Announcements add up. -/
theorem Announces.trans (h : m.Announces m') (h' : m'.Announces m'') : m.Announces m'' where
  nextId := h'.nextId.trans h.nextId
  absent := fun id hn => h'.absent id (h.absent id hn)
  news := fun id root kind queue hl => by
    obtain ⟨first, hf, rf, af⟩ := h.news id root kind queue hl
    obtain ⟨second, hs, rs, as⟩ := h'.news id root kind _ hf
    refine ⟨first ++ second, by rwa [← List.append_assoc], ?_, fun k => ?_⟩
    · intro e he
      rcases List.mem_append.mp he with he | he
      · exact rf e he
      · exact rs e he
    · rcases as k with ⟨stay, silent⟩ | lead
      · rcases af k with ⟨stay', silent'⟩ | lead'
        · exact .inl ⟨stay.trans stay', fun v => by rw [replay_append, silent, silent']⟩
        · exact .inr fun v => by rw [replay_append, silent, lead', stay]
      · exact .inr fun v => by rw [replay_append, lead]

-----------------------------------------------------------------------------------------
-- Elementary changes
-----------------------------------------------------------------------------------------

/-- The object at a key after a write at another or at the same key. -/
theorem objects_write (m : Memory) (key k : Key) (object : Option StoredObject)
    : (m.write key object).objects[k]? = if k = key then object else m.objects[k]? := by
  cases object with
  | none =>
      simp only [write, Std.ExtTreeMap.getElem?_erase]
      by_cases h : k = key
      · simp [h, Std.ReflCmp.compare_self]
      · have hc : compare key k ≠ .eq := by
          intro he
          exact h (Std.LawfulEqCmp.eq_of_compare he).symm
        simp [h, hc]
  | some o =>
      simp only [write, Std.ExtTreeMap.getElem?_insert]
      by_cases h : k = key
      · simp [h, Std.ReflCmp.compare_self]
      · have hc : compare key k ≠ .eq := by
          intro he
          exact h (Std.LawfulEqCmp.eq_of_compare he).symm
        simp [h, hc]

theorem projected_write (m : Memory) (key k : Key) (object : Option StoredObject)
    (root : String) (kind : TreeKind)
    : (m.write key object).projected root kind k
      = if k = key then
          if key.root? = some root then object.bind (·.projection? kind) else none
        else m.projected root kind k := by
  rw [projected, projected, objects_write]
  by_cases h : k = key <;> simp [h]

/-- The change of a write leads to what it wrote, and there is none where nothing changed. -/
theorem change?_spec (key : Key) (kind : TreeKind) (old new : Option StoredObject)
    : (∀ root, key.root? = some root → ∀ e ∈ change? key kind old new, e.Fits root)
      ∧ ∀ k v, replay (change? key kind old new).toList k v
          = if k = key ∧ old.bind (·.projection? kind) ≠ new.bind (·.projection? kind) then
              new.bind (·.projection? kind)
            else v := by
  rw [change?]
  cases hn : new.bind (·.projection? kind) with
  | none =>
      cases ho : old.bind (·.projection? kind) with
      | none => simp
      | some w =>
          refine ⟨by simp [TreeEvent.Fits], fun k v => ?_⟩
          by_cases hk : k = key <;> simp [hk, replay, TreeEvent.effect]
  | some attributes =>
      dsimp only
      split
      · rename_i same
        simp [same]
      · rename_i differs
        refine ⟨by simp [TreeEvent.Fits], fun k v => ?_⟩
        by_cases hk : k = key <;> simp [hk, differs, replay, TreeEvent.effect]

/-- A write announces itself. -/
theorem announces_write (m : Memory) (key : Key) (object : Option StoredObject)
    : m.Announces (m.write key object) := by
  cases hr : key.root? with
  | none =>
      -- The empty key is in no tree, and nothing is queued.
      have quiet : (m.write key object).channels = m.channels := by
        simp [write, notify, hr]
      refine ⟨by rw [quiet], fun id h => by rw [quiet, h], fun id root kind queue h => ?_⟩
      refine ⟨[], ?_, by simp, fun k => .inl ⟨?_, fun v => rfl⟩⟩
      · rw [List.append_nil, Listens, quiet]
        exact h
      · rw [projected_write]
        by_cases hk : k = key
        · rw [if_pos hk, hk, projected, hr]
          simp
        · rw [if_neg hk]
  | some own =>
      have channels : (m.write key object).channels
          = m.channels.announce own fun kind => change? key kind m.objects[key]? object := by
        simp only [write, notify, hr]
        rfl
      refine ⟨?_, fun id h => ?_, fun id root kind queue h => ?_⟩
      · rw [channels, Channels.nextId_announce]
      · rw [channels, Channels.get?_announce, h]
        rfl
      · obtain ⟨fits, effect⟩ := change?_spec key kind m.objects[key]? object
        by_cases hroot : root = own
        · subst hroot
          refine ⟨(change? key kind m.objects[key]? object).toList, ?_, ?_, fun k => ?_⟩
          · rw [Listens, channels, Channels.get?_announce, h]
            simp
          · intro e he
            exact fits root hr e (by simpa using he)
          · rw [projected_write]
            by_cases hk : k = key
            · subst hk
              by_cases moved : (m.objects[k]?).bind (·.projection? kind)
                  = object.bind (·.projection? kind)
              · refine .inl ⟨?_, fun v => by simp [effect, moved]⟩
                rw [if_pos rfl, if_pos hr, projected, if_pos hr, moved]
              · exact .inr fun v => by simp [effect, moved, hr]
            · exact .inl ⟨by rw [if_neg hk], fun v => by simp [effect, hk]⟩
        · refine ⟨[], ?_, by simp, fun k => .inl ⟨?_, fun v => rfl⟩⟩
          · rw [Listens, channels, Channels.get?_announce, h]
            simp [hroot]
          · rw [projected_write]
            by_cases hk : k = key
            · have foreign : key.root? ≠ some root := by
                rw [hr]
                simpa using Ne.symm hroot
              rw [if_pos hk, if_neg foreign, hk, projected, if_neg foreign]
            · rw [if_neg hk]

/-- A flag is announced without any effect on attributes. -/
theorem announces_markError (m : Memory) (key : Key) (error : Bool)
    : m.Announces (m.markError key error) := by
  cases ho : m.objects[key]? with
  | none =>
      rw [markError, ho]
      exact .refl m
  | some o =>
      have objects : (m.markError key error).objects = m.objects := by
        rw [markError, ho]
      have channels : (m.markError key error).channels
          = m.channels.announce (key.root?.getD "") fun kind =>
              if (o.projection? kind).isSome then some (.markError key error) else none := by
        rw [markError, ho, Channels.announce]
        simp only
        congr 1
        funext c kind
        split <;> rfl
      have silent (news : List TreeEvent) (h : ∀ e ∈ news, e = .markError key error)
          (k : Key) (v : Option Attributes)
          : replay news k v = v := by
        induction news with
        | nil => rfl
        | cons e rest ih =>
            rw [replay_cons, h e List.mem_cons_self]
            exact ih fun e he => h e (List.mem_cons_of_mem _ he)
      refine ⟨?_, fun id h => ?_, fun id root kind queue h => ?_⟩
      · rw [channels, Channels.nextId_announce]
      · rw [channels, Channels.get?_announce, h]
        rfl
      · have stay (k : Key)
            : (m.markError key error).projected root kind k = m.projected root kind k :=
          projected_congr objects
        by_cases hroot : root = key.root?.getD ""
        · have flags : ∀ e ∈ (if (o.projection? kind).isSome then
              some (TreeEvent.markError key error) else none).toList,
              e = .markError key error := by
            intro e he
            split at he <;> simp_all
          refine ⟨_, ?_, ?_, fun k => .inl ⟨stay k, silent _ flags k⟩⟩
          · rw [Listens, channels, Channels.get?_announce, h]
            simp [hroot]
          · intro e he
            rw [flags e he]
            exact trivial
        · refine ⟨[], ?_, by simp, fun k => .inl ⟨stay k, fun v => rfl⟩⟩
          rw [Listens, channels, Channels.get?_announce, h]
          simp [hroot]

theorem announces_update {m' : Memory} {key : Key} {f : StoredObject → StoredObject}
    (h : m.update key f = .ok m')
    : m.Announces m' := by
  rw [update] at h
  split at h
  · cases h
    exact announces_write m key _
  · cases h

-----------------------------------------------------------------------------------------
-- Batches
-----------------------------------------------------------------------------------------

theorem announces_applyDelete (kind : TreeKind) (m : Memory) (r : Resource)
    : m.Announces (applyDelete kind m r) := by
  rw [applyDelete]
  split
  · exact .refl m
  · split
    · exact .refl m
    · split
      · exact announces_write m _ _
      · cases kind <;> exact announces_write m _ _

theorem announces_applyCreate (kind : TreeKind) (m : Memory) (r : Resource)
    : m.Announces (applyCreate kind m r) := by
  rw [applyCreate]
  split
  · exact .refl m
  · cases kind <;> exact announces_write m _ _

/-- What each step announces, a sequence of steps announces, by list induction. -/
theorem announces_foldl {α : Type} {f : Memory → α → Memory} (hf : ∀ m a, Announces m (f m a))
    (l : List α) (m : Memory)
    : m.Announces (l.foldl f m) := by
  induction l generalizing m with
  | nil => exact .refl m
  | cons a rest ih => exact (hf m a).trans (ih (f m a))

/-- A batch announces all that it does. -/
theorem announces_push (m : Memory) (kind : TreeKind) (batch : ResourceBatch)
    : m.Announces (m.push kind batch) := by
  have counted : m.Announces { m with pushes := m.pushes + 1 } := announces_of_eq rfl rfl
  have deleted := announces_foldl (announces_applyDelete kind) batch.delete
    { m with pushes := m.pushes + 1 }
  have created := announces_foldl (announces_applyCreate kind) batch.create
    (batch.delete.foldl (applyDelete kind) { m with pushes := m.pushes + 1 })
  exact (counted.trans deleted).trans created

end Memory

-----------------------------------------------------------------------------------------
-- Mutations
-----------------------------------------------------------------------------------------

/-- What may be done to a backend in memory. -/
inductive Mutation where
  | insert (key : Key) (object : StoredObject)
  | delete (key : Key)
  | setOwner (key : Key) (owner : Owner)
  | setObserved (key : Key) (observed : Attributes)
  | markError (key : Key) (error : Bool)
  | failKey (key : Key)
  | recoverKey (key : Key)
  | push (kind : TreeKind) (batch : ResourceBatch)

/-- Does what can be done; an object that is not there is not changed. -/
def Mutation.apply (m : Memory) : Mutation → Memory
  | .insert key object => m.insert key object
  | .delete key => m.delete key
  | .setOwner key owner => (m.setOwner key owner).toOption.getD m
  | .setObserved key observed => (m.setObserved key observed).toOption.getD m
  | .markError key error => m.markError key error
  | .failKey key => m.failKey key
  | .recoverKey key => m.recoverKey key
  | .push kind batch => m.push kind batch

/-- Every mutation announces what it does. -/
theorem Mutation.announces (m : Memory) (c : Mutation) : m.Announces (c.apply m) := by
  cases c with
  | insert key object => exact m.announces_write key (some object)
  | delete key => exact m.announces_write key none
  | setOwner key owner =>
      rw [apply]
      cases h : m.setOwner key owner with
      | error e => exact .refl m
      | ok m' => exact Memory.announces_update h
  | setObserved key observed =>
      rw [apply]
      cases h : m.setObserved key observed with
      | error e => exact .refl m
      | ok m' => exact Memory.announces_update h
  | markError key error => exact m.announces_markError key error
  | failKey key => exact Memory.announces_of_eq rfl rfl
  | recoverKey key => exact Memory.announces_of_eq rfl rfl
  | push kind batch => exact m.announces_push kind batch

end Concord
