import Concord.Proofs.Universe.Courses
import Concord.Scenario.ScriptedPool

/-! Having trees rebuilt. Whoever asks for it tells the workers of the roots that are there and
waits for their replies, while anything else may go on. Main statement: where no error is returned,
each of these workers has subscribed and loaded since, and shows the tree that it loaded or what its
stream made of that. Workers that were gone before are passed over.
-/

namespace Concord

variable {β : Type}

-----------------------------------------------------------------------------------------
-- Replies
-----------------------------------------------------------------------------------------

theorem Site.replyOf?_done_iff {s : Site β} {kind : TreeKind} {root : String} {ticket : Nat}
    : s.replyOf? kind root ticket = some (.ok ())
      ↔ ∃ slot, s.slot? kind root = some slot
          ∧ slot.replies.lookup ticket = some (.ok ()) := by
  rw [replyOf?]
  cases s.slot? kind root with
  | none => simp
  | some slot =>
      dsimp only
      split
      · rename_i answered
        simp [answered]
      · rename_i silent
        cases slot.alive <;> simp [silent]

variable [Backend β]

namespace Slot

variable {s s' : Slot} {now : Nat} {b b' : β} {deed : Deed} {ticket : Nat}

/-- Of a reply that is added, a success is the only one that is found under its number. -/
theorem lookup_added {replies : List (Nat × Except BackendError Unit)} {number : Nat}
    {result : Except BackendError Unit}
    (h : (replies ++ [(number, result)]).lookup ticket = some (.ok ()))
    : replies.lookup ticket = some (.ok ()) ∨ ticket = number ∧ result = .ok () := by
  rw [List.lookup_append, Option.or_eq_some_iff] at h
  rcases h with old | ⟨-, new⟩
  · exact .inl old
  · rw [List.lookup_cons] at new
    split at new
    · rename_i same
      exact .inr ⟨by simpa using same, Option.some.inj new⟩
    · cases new

/-- A worker that was to rebuild its tree replies that it is done only if it has a new one. -/
theorem Does.answered (does : s.Does now b deed s' b')
    (resets : ∀ command, (ticket, command) ∈ s.inbox → command = .reset)
    (answered : s'.replies.lookup ticket = some (.ok ()))
    : s.replies.lookup ticket = some (.ok ()) ∨ ∃ tree, deed.tree? = some tree := by
  cases does with
  | hydrated _ _ => exact .inr ⟨_, rfl⟩
  | reloaded _ _ _ _ => exact .inr ⟨_, rfl⟩
  | settled started stays told =>
      rcases lookup_added answered with old | ⟨rfl, -⟩
      · exact .inl old
      · cases resets .settle (told ▸ List.mem_cons_self)
  | refused started stays told refused =>
      rcases lookup_added answered with old | ⟨-, failed⟩
      · exact .inl old
      · cases failed
  | _ => exact .inl answered

/-- A reply stays. -/
theorem Does.replies (does : s.Does now b deed s' b') : ∃ more, s'.replies = s.replies ++ more := by
  cases does with
  | settled _ _ _ | reloaded _ _ _ _ | refused _ _ _ _ => exact ⟨_, rfl⟩
  | _ => exact ⟨[], (List.append_nil _).symm⟩

end Slot

-----------------------------------------------------------------------------------------
-- Trees
-----------------------------------------------------------------------------------------

/-- A tree becomes another as changes are applied to it. -/
def HashTree.Becomes : HashTree → HashTree → Prop :=
  Relation.ReflTransGen fun tree later => ∃ e, tree.apply e = .ok later

/-- The tree that a worker shows becomes another as the worker takes changes. -/
theorem Worker.becomes_drain {w : Worker} {tree : HashTree} (shows : w.snapshot = some tree)
    (count : Nat) (b : β)
    : ∃ later, (w.drain count b).1.snapshot = some later ∧ tree.Becomes later := by
  induction count generalizing w tree b with
  | zero => exact ⟨tree, shows, .refl⟩
  | succ count ih =>
      rw [drain]
      split
      · exact ⟨tree, shows, .refl⟩
      · split
        · rename_i e b' _
          cases changed : tree.apply e with
          | ok next =>
              have shows' : (w.apply e).snapshot = some next := by simp [apply, shows, changed]
              obtain ⟨later, shown, becomes⟩ := ih shows' b'
              exact ⟨later, shown, .head ⟨e, changed⟩ becomes⟩
          | error _ =>
              have same : w.apply e = w := by simp [apply, shows, changed]
              rw [same]
              exact ih shows b'
        · exact ⟨tree, shows, .refl⟩

namespace Site

variable {s s' s'' : Site β} {slot slot' : Slot} {kind : TreeKind} {root : String}
  {roots : List String} {ticket : Nat} {steps : List (Site β × Site β)}

-----------------------------------------------------------------------------------------
-- One worker
-----------------------------------------------------------------------------------------

/-- What a move comes to for one worker. -/
inductive Befalls (s s' : Site β) (slot : Slot) : Slot → Prop
  | acts {deed : Deed} {slot' : Slot} (taken : slot.turn s.now s.backend = some (slot', s'.backend))
    (does : slot.Does s.now s.backend deed slot' s'.backend)
    : Befalls s s' slot slot'
  | told (alive : slot.alive = true) (command : WorkerCommand)
    : Befalls s s' slot { slot with inbox := slot.inbox ++ [(s.nextTicket, command)] }
  | leaves : Befalls s s' slot { slot with stopping := true }
  | stays : Befalls s s' slot slot

theorem Moves.befalls (move : s.Moves s') (found : s.slot? kind root = some slot)
    : ∃ slot', s'.slot? kind root = some slot' ∧ s.Befalls s' slot slot' := by
  have here : (kind, root) ∈ s.ids :=
    List.mem_map.mpr ⟨slot, (slot?_spec found).1, (slot?_spec found).2⟩
  have alike {other : Slot} (there : s.slot? other.worker.kind other.worker.root = some other)
      (same : other.id = (kind, root))
      : other = slot := by
    obtain ⟨hk, hr⟩ := Prod.mk.inj same
    rw [hk, hr, found] at there
    exact (Option.some.inj there).symm
  cases move with
  | work works =>
      cases works with
      | @turn other other' backend there taken =>
          have id : other'.id = other.id := Slot.id_turn taken
          by_cases same : other.id = (kind, root)
          · cases alike there same
            obtain ⟨-, deed, does⟩ := Slot.does_turn taken
            exact ⟨other', slot?_setSlot_self here (id.trans same), .acts taken does⟩
          · exact ⟨slot, (slot?_setSlot_ne (id.trans_ne same)).trans found, .stays⟩
      | @tell other there command =>
          by_cases same : other.id = (kind, root)
          · cases alike there same
            cases alive : slot.alive with
            | true => exact ⟨_, slot?_tell_self here same alive command, .told alive command⟩
            | false =>
                rw [tell, alive]
                exact ⟨slot, found, .stays⟩
          · exact ⟨slot, (slot?_tell_ne same command).trans found, .stays⟩
      | note backend slots tickets passes =>
          exact ⟨slot, by rw [slot?, slots, ← slot?, found], .stays⟩
  | @leave other there =>
      by_cases same : other.id = (kind, root)
      · cases alike there same
        exact ⟨_, slot?_setSlot_self here same, .leaves⟩
      · have kept : (s.setSlot { other with stopping := true }).slot? kind root
            = s.slot? kind root :=
          slot?_setSlot_ne same
        exact ⟨slot, kept.trans found, .stays⟩
  | change backend => exact ⟨slot, found, .stays⟩

theorem Moves.nextTicket (move : s.Moves s') : s.nextTicket ≤ s'.nextTicket := by
  cases move with
  | work works =>
      cases works with
      | turn _ _ => exact Nat.le_refl _
      | tell _ _ =>
          rw [nextTicket_tell]
          exact Nat.le_succ _
      | note _ _ tickets _ => exact Nat.le_of_eq tickets.symm
  | leave _ => exact Nat.le_refl _
  | change _ => exact Nat.le_refl _

/-- The worker of a root subscribes and loads a tree, which it shows from then on. -/
def Loads (s s' : Site β) (kind : TreeKind) (root : String) (tree : HashTree) : Prop :=
  ∃ slot slot' stream, s.slot? kind root = some slot ∧ s'.slot? kind root = some slot'
    ∧ slot.turn s.now s.backend = some (slot', s'.backend)
    ∧ slot.worker.Hydrates s.backend (.fresh (slot.worker.install stream tree)) s'.backend
    ∧ slot'.worker = slot.worker.install stream tree

/-- The worker of a root at most takes what its stream gives next. -/
def Drains (s s' : Site β) (kind : TreeKind) (root : String) : Prop :=
  ∃ slot slot' count, s.slot? kind root = some slot ∧ s'.slot? kind root = some slot'
    ∧ slot'.worker.snapshot = (slot.worker.drain count s.backend).1.snapshot

theorem Moves.loads_or_drains (move : s.Moves s') (found : s.slot? kind root = some slot)
    : (∃ tree, s.Loads s' kind root tree) ∨ s.Drains s' kind root := by
  obtain ⟨slot', found', befalls⟩ := move.befalls found
  cases befalls with
  | @acts deed _ taken does =>
      cases loaded : deed.tree? with
      | some tree =>
          obtain ⟨stream, way, installed⟩ := does.loads loaded
          exact .inl ⟨tree, slot, slot', stream, found, found', taken, way, installed⟩
      | none =>
          obtain ⟨count, drained⟩ := does.drains loaded
          exact .inr ⟨slot, slot', count, found, found', drained⟩
  | told _ _ | leaves | stays => exact .inr ⟨slot, _, 0, found, found', rfl⟩

-----------------------------------------------------------------------------------------
-- Courses
-----------------------------------------------------------------------------------------

/-- The steps of a course from a site on. -/
inductive Course (R : Site β → Site β → Prop) (s : Site β) : List (Site β × Site β) → Site β → Prop
  | nil : Course R s [] s
  | snoc {steps : List (Site β × Site β)} {s' s'' : Site β} (course : Course R s steps s')
    (step : R s' s'')
    : Course R s (steps ++ [(s', s'')]) s''

theorem Goes.course (goes : s.Goes s') : ∃ steps, Course Works s steps s' := by
  induction goes with
  | refl => exact ⟨[], .nil⟩
  | tail _ works ih =>
      obtain ⟨steps, course⟩ := ih
      exact ⟨_, course.snoc works⟩

theorem Course.moves (course : Course Works s steps s') : Course Moves s steps s' := by
  induction course with
  | nil => exact .nil
  | snoc _ works ih => exact ih.snoc (.work works)

/-- In some steps the tree of a root was loaded, and since the last time its worker has at most
taken what its stream gave. What it shows in the end is the tree that was loaded or came of it.
-/
def Rebuilt (steps : List (Site β × Site β)) (s : Site β) (kind : TreeKind) (root : String)
    : Prop :=
  ∃ before after mid mid' tree shown, steps = before ++ (mid, mid') :: after
    ∧ mid.Loads mid' kind root tree ∧ (∀ step ∈ after, step.1.Drains step.2 kind root)
    ∧ s.snapshot? kind root = some shown ∧ tree.Becomes shown

/-- Right after a load this is so. -/
theorem rebuilt_of_loads {tree : HashTree} (loads : s.Loads s' kind root tree)
    : Rebuilt (steps ++ [(s, s')]) s' kind root := by
  refine ⟨steps, [], s, s', tree, tree, rfl, loads, by simp, ?_, .refl⟩
  obtain ⟨slot, slot', stream, -, found, -, -, installed⟩ := loads
  rw [snapshot?, found, Option.bind_some, installed]
  rfl

theorem Rebuilt.snoc (h : Rebuilt steps s kind root) (move : s.Moves s')
    (found : s.slot? kind root = some slot)
    : Rebuilt (steps ++ [(s, s')]) s' kind root := by
  rcases move.loads_or_drains found with ⟨tree, loads⟩ | drains
  · exact rebuilt_of_loads loads
  · obtain ⟨before, after, mid, mid', tree, shown, rfl, loads, since, shows, becomes⟩ := h
    obtain ⟨slot, slot', count, there, found', drained⟩ := drains
    rw [snapshot?, there, Option.bind_some] at shows
    obtain ⟨later, shows', changed⟩ := Worker.becomes_drain shows count s.backend
    refine ⟨before, after ++ [(s, s')], mid, mid', tree, later, by simp, loads, fun step hm => ?_,
      ?_, becomes.trans changed⟩
    · rcases List.mem_append.mp hm with old | new
      · exact since step old
      · rw [List.mem_singleton.mp new]
        exact ⟨slot, slot', count, there, found', drained⟩
    · rw [snapshot?, found', Option.bind_some, drained, shows']

/-- The invariant from when a worker was told until it replies. -/
structure Pending (steps : List (Site β × Site β)) (s : Site β) (kind : TreeKind) (root : String)
    (ticket : Nat) : Prop where
  numbered : ticket < s.nextTicket
  told : ∃ slot, s.slot? kind root = some slot
    ∧ (∀ command, (ticket, command) ∈ slot.inbox → command = .reset)
    ∧ (slot.replies.lookup ticket = some (.ok ()) → Rebuilt steps s kind root)

theorem Pending.snoc (h : Pending steps s kind root ticket) (move : s.Moves s')
    : Pending (steps ++ [(s, s')]) s' kind root ticket := by
  obtain ⟨numbered, slot, found, resets, rebuilt⟩ := h
  obtain ⟨slot', found', befalls⟩ := move.befalls found
  refine ⟨Nat.lt_of_lt_of_le numbered move.nextTicket, slot', found', ?_⟩
  have kept (answered : slot.replies.lookup ticket = some (.ok ()))
      : Rebuilt (steps ++ [(s, s')]) s' kind root :=
    (rebuilt answered).snoc move found
  cases befalls with
  | @acts deed _ taken does =>
      refine ⟨fun command hm => resets command (does.tickets.1 _ hm), fun answered => ?_⟩
      rcases does.answered resets answered with old | ⟨tree, loaded⟩
      · exact kept old
      · obtain ⟨stream, way, installed⟩ := does.loads loaded
        exact rebuilt_of_loads ⟨slot, slot', stream, found, found', taken, way, installed⟩
  | told alive command =>
      refine ⟨fun other hm => ?_, kept⟩
      rcases List.mem_append.mp hm with old | new
      · exact resets other old
      · cases List.mem_singleton.mp new
        exact absurd numbered (Nat.lt_irrefl _)
  | leaves => exact ⟨resets, kept⟩
  | stays => exact ⟨resets, kept⟩

theorem Pending.course (h : Pending [] s kind root ticket) (course : Course Moves s steps s')
    : Pending steps s' kind root ticket := by
  induction course with
  | nil => exact h
  | snoc _ move ih => exact ih.snoc move

/-- A worker that replied that it is done has a new tree. -/
theorem Pending.rebuilt (h : Pending steps s kind root ticket)
    (done : s.replyOf? kind root ticket = some (.ok ()))
    : Rebuilt steps s kind root := by
  obtain ⟨-, slot, found, -, rebuilt⟩ := h
  obtain ⟨other, there, answered⟩ := replyOf?_done_iff.mp done
  rw [found] at there
  cases there
  exact rebuilt answered

/-- A reply that a worker is done stays. -/
theorem Moves.done (move : s.Moves s') (done : s.replyOf? kind root ticket = some (.ok ()))
    : s'.replyOf? kind root ticket = some (.ok ()) := by
  obtain ⟨slot, found, answered⟩ := replyOf?_done_iff.mp done
  obtain ⟨slot', found', befalls⟩ := move.befalls found
  refine replyOf?_done_iff.mpr ⟨slot', found', ?_⟩
  cases befalls with
  | acts taken does =>
      obtain ⟨more, replied⟩ := does.replies
      rw [replied, List.lookup_append, answered]
      rfl
  | told _ _ => exact answered
  | leaves => exact answered
  | stays => exact answered

theorem Goes.done (goes : s.Goes s') (done : s.replyOf? kind root ticket = some (.ok ()))
    : s'.replyOf? kind root ticket = some (.ok ()) := by
  induction goes with
  | refl => exact done
  | tail _ works ih => exact Moves.done (.work works) ih

/-- A worker that is gone does nothing any more. -/
theorem Course.gone (course : Course Moves s steps s') (found : s.slot? kind root = some slot)
    (gone : slot.alive = false)
    : ∃ slot', s'.slot? kind root = some slot' ∧ slot'.alive = false
        ∧ slot'.worker = slot.worker := by
  induction course with
  | nil => exact ⟨slot, found, gone, rfl⟩
  | snoc _ move ih =>
      obtain ⟨slot', found', gone', same⟩ := ih
      obtain ⟨slot'', found'', befalls⟩ := move.befalls found'
      refine ⟨slot'', found'', ?_⟩
      cases befalls with
      | acts taken does =>
          have alive := (Slot.does_turn taken).1
          rw [gone'] at alive
          cases alive
      | told alive command =>
          rw [gone'] at alive
          cases alive
      | leaves => exact ⟨gone', same⟩
      | stays => exact ⟨gone', same⟩

/-- So its tree is not rebuilt, by induction on the course. -/
theorem Course.not_rebuilt (course : Course Moves s steps s')
    (found : s.slot? kind root = some slot) (gone : slot.alive = false)
    : ¬ Rebuilt steps s' kind root := by
  have idle : ∀ step ∈ steps, ∀ tree, ¬ step.1.Loads step.2 kind root tree := by
    induction course with
    | nil => simp
    | snoc course _ ih =>
        intro step hm tree loads
        rcases List.mem_append.mp hm with old | new
        · exact ih step old tree loads
        · cases List.mem_singleton.mp new
          obtain ⟨slot', found', gone', -⟩ := course.gone found gone
          obtain ⟨other, _, _, there, -, taken, -⟩ := loads
          rw [found'] at there
          cases there
          rw [(Slot.does_turn taken).1] at gone'
          cases gone'
  intro rebuilt
  obtain ⟨before, after, mid, mid', tree, shown, rfl, loads, -⟩ := rebuilt
  exact idle (mid, mid') (List.mem_append_right _ List.mem_cons_self) tree loads

-----------------------------------------------------------------------------------------
-- Asking for it
-----------------------------------------------------------------------------------------

/-- Where the workers of some roots were told to rebuild their trees, those that were there wait for
that.
-/
theorem pending_toReset (h : s.Orderly) (apart : roots.Nodup) (hr : root ∈ roots)
    (found : s.slot? kind root = some slot) (alive : slot.alive = true)
    : ∃ ticket, (root, ticket) ∈ (s.tellAll .reset (s.toReset kind roots)).1
        ∧ Pending [] (s.tellAll .reset (s.toReset kind roots)).2 kind root ticket := by
  obtain ⟨member, id⟩ := slot?_spec found
  obtain ⟨rfl, rfl⟩ := Prod.mk.inj id
  obtain ⟨ticket, told, new, bounded, informed⟩ :=
    told_tellAll (nodup_toReset apart) (fun _ => found_of_mem_toReset)
      (fun other hm => (mem_toReset.mp hm).choose_spec.2.2) .reset
      (mem_toReset.mpr ⟨_, hr, found, alive⟩)
  obtain ⟨inbox, replies⟩ := h.numbered slot member
  refine ⟨ticket, told, bounded, _, informed, fun command hm => ?_, fun answered => ?_⟩
  · rcases List.mem_append.mp hm with old | new'
    · exact absurd (inbox _ old) (Nat.not_lt.mpr new)
    · cases List.mem_singleton.mp new'
      rfl
  · obtain ⟨before, after, parts, -⟩ := List.lookup_eq_some_iff.mp answered
    have old : (ticket, .ok ()) ∈ slot.replies :=
      parts ▸ List.mem_append_right before List.mem_cons_self
    exact absurd (replies _ old) (Nat.not_lt.mpr new)

/-- What comes of it for the trees of some roots: those whose worker was there are rebuilt, and no
others, which are left as they were.
-/
structure Rebuilds (s : Site β) (kind : TreeKind) (roots : List String)
    (steps : List (Site β × Site β)) (s' : Site β) : Prop where
  rebuilt_iff : ∀ root ∈ roots, ∀ slot, s.slot? kind root = some slot →
    (Rebuilt steps s' kind root ↔ slot.alive = true)
  passed : ∀ root ∈ roots, ∀ slot, s.slot? kind root = some slot → slot.alive = false →
    ∃ slot', s'.slot? kind root = some slot' ∧ slot'.alive = false ∧ slot'.worker = slot.worker

theorem rebuilds_of_done (h : s.Orderly) (apart : roots.Nodup)
    (course : Course Moves (s.tellAll .reset (s.toReset kind roots)).2 steps s')
    (done : ∀ told ∈ (s.tellAll .reset (s.toReset kind roots)).1,
      s'.replyOf? kind told.1 told.2 = some (.ok ()))
    : s.Rebuilds kind roots steps s' where
  rebuilt_iff := fun root hr slot found => by
    cases alive : slot.alive with
    | true =>
        obtain ⟨ticket, told, pending⟩ := pending_toReset h apart hr found alive
        exact iff_of_true ((pending.course course).rebuilt (done _ told)) rfl
    | false => exact iff_of_false (course.not_rebuilt (slot?_told found alive) alive) (by simp)
  passed := fun root hr slot found gone => course.gone (slot?_told found gone) gone

/-- Whoever waits for replies without an error has them all. -/
theorem await_done (distinct : s.ids.Nodup) {tickets : List (String × Nat)}
    (h : (s.await kind tickets).1 = .ok ())
    : ∀ told ∈ tickets, (s.await kind tickets).2.replyOf? kind told.1 told.2 = some (.ok ()) := by
  induction tickets generalizing s with
  | nil => simp
  | cons told others ih =>
      obtain ⟨root, ticket⟩ := told
      rw [await] at h ⊢
      cases replied : s.replyOf? kind root ticket with
      | some reply =>
          cases reply with
          | ok _ =>
              simp only [replied] at h ⊢
              refine List.forall_mem_cons.mpr ⟨?_, ih distinct h⟩
              exact (goes_await distinct kind others).done replied
          | error e =>
              simp only [replied] at h
              cases h
      | none =>
          have rested := goes_rest distinct
          have later := rested.distinct distinct
          simp only [replied] at h ⊢
          cases reply : s.rest.replyOf? kind root ticket with
          | none =>
              simp only [reply, Option.getD_none] at h
              cases h
          | some result =>
              cases result with
              | ok _ =>
                  simp only [reply, Option.getD_some] at h ⊢
                  refine List.forall_mem_cons.mpr ⟨?_, ih later h⟩
                  exact (goes_await later kind others).done reply
              | error e =>
                  simp only [reply, Option.getD_some] at h
                  cases h

/-- Whenever the trees of some roots are rebuilt without an error, and whatever goes on meanwhile,
every worker that was there has subscribed and loaded since. Where one has not, there is an error.
-/
theorem reset_rebuilds (h : s.Reached) (kind : TreeKind) (apart : roots.Nodup)
    : (∀ steps s', Course Moves (s.tellAll .reset (s.toReset kind roots)).2 steps s' →
        (∀ told ∈ (s.tellAll .reset (s.toReset kind roots)).1,
          s'.replyOf? kind told.1 told.2 = some (.ok ())) →
        s.Rebuilds kind roots steps s')
      ∧ ((s.reset kind roots).1 = .ok () →
        ∃ steps, Course Works (s.tellAll .reset (s.toReset kind roots)).2 steps
            (s.reset kind roots).2
          ∧ s.Rebuilds kind roots steps (s.reset kind roots).2)
      ∧ ∀ root ∈ roots, ∀ slot, s.slot? kind root = some slot → slot.alive = true →
        (∀ steps, Course Works (s.tellAll .reset (s.toReset kind roots)).2 steps
            (s.reset kind roots).2 → ¬ Rebuilt steps (s.reset kind roots).2 kind root) →
          ∃ e, (s.reset kind roots).1 = .error e := by
  have told := goes_tellReset (s := s) kind apart
  have distinct := told.distinct h.orderly.distinct
  obtain ⟨steps, course⟩ := (goes_await distinct kind
    (s.tellAll .reset (s.toReset kind roots)).1).course
  have rebuilds (ok : (s.reset kind roots).1 = .ok ())
      : s.Rebuilds kind roots steps (s.reset kind roots).2 :=
    rebuilds_of_done h.orderly apart course.moves (await_done distinct ok)
  refine ⟨fun steps s' course done => rebuilds_of_done h.orderly apart course done,
    fun ok => ⟨steps, course, rebuilds ok⟩, fun root hr slot found alive never => ?_⟩
  cases result : (s.reset kind roots).1 with
  | ok _ =>
      have rebuilt := ((rebuilds result).rebuilt_iff root hr slot found).mpr alive
      exact absurd rebuilt (never steps course)
  | error e => exact ⟨e, rfl⟩

end Site

-----------------------------------------------------------------------------------------
-- A worker that broke down
-----------------------------------------------------------------------------------------

namespace Broken

open Scenario

/-- Two roots are served, and loads of one of them break down from now on. -/
def failing : ScriptedPool :=
  ScriptedPool.script (Site.rest (Site.serve { backend := {} } .config ["t1", "t2"])) fun b =>
    { b with panics := ["t1"] }

/-- Its worker breaks down as its tree is to be rebuilt, and then the backend recovers. -/
def half : ScriptedPool :=
  ScriptedPool.script (failing.reset .config ["t1"]).2 ScriptedBackend.heal

theorem reached_half : half.Reached := by
  have served := (Site.Reached.empty ({} : ScriptedBackend)).serve .config
    (show ["t1", "t2"].Nodup by decide)
  have hydrated := served.goes (Site.goes_rest served.orderly.distinct)
  have reached : failing.Reached := hydrated.move (.change _)
  exact (reached.goes (Site.goes_reset reached.orderly.distinct .config (by decide))).move
    (.change _)

theorem alive_half
    : (half.slot? .config "t1").map Slot.alive = some false
      ∧ (half.slot? .config "t2").map Slot.alive = some true := by
  decide +kernel

theorem reset_half : (half.reset .config ["t1", "t2"]).1 = .ok () := by
  rfl

/-- The tree of the root whose worker is there is rebuilt, and the other one is passed over. -/
theorem reset_rebuilds_half
    : ∃ steps,
        Site.Rebuilt steps (half.reset .config ["t1", "t2"]).2 .config "t2"
          ∧ ¬ Site.Rebuilt steps (half.reset .config ["t1", "t2"]).2 .config "t1" := by
  have apart : ["t1", "t2"].Nodup := by decide
  obtain ⟨-, rebuilds_of_ok, -⟩ := Site.reset_rebuilds reached_half .config apart
  obtain ⟨steps, -, rebuilds⟩ := rebuilds_of_ok reset_half
  obtain ⟨slot, found, gone⟩ := Option.map_eq_some_iff.mp alive_half.1
  obtain ⟨slot', found', alive⟩ := Option.map_eq_some_iff.mp alive_half.2
  refine ⟨steps, (rebuilds.rebuilt_iff "t2" (by decide) slot' found').mpr alive, fun rebuilt => ?_⟩
  have there := (rebuilds.rebuilt_iff "t1" (by decide) slot found).mp rebuilt
  rw [gone] at there
  cases there

/-- It is not so that the tree of every root that is served is rebuilt where no error is returned.
-/
theorem not_reset_rebuilds
    : ¬ ∀ (s : ScriptedPool) (kind : TreeKind) (roots : List String), s.Reached → roots.Nodup →
        (s.reset kind roots).1 = .ok () →
          ∀ root ∈ roots, ∀ slot, s.slot? kind root = some slot →
            ∃ steps, Site.Course Site.Works (s.tellAll .reset (s.toReset kind roots)).2 steps
                (s.reset kind roots).2
              ∧ Site.Rebuilt steps (s.reset kind roots).2 kind root := by
  intro claim
  obtain ⟨slot, found, gone⟩ := Option.map_eq_some_iff.mp alive_half.1
  obtain ⟨steps, course, rebuilt⟩ :=
    claim half .config ["t1", "t2"] reached_half (by decide) reset_half "t1" (by decide) slot found
  exact course.moves.not_rebuilt (Site.slot?_told found gone) gone rebuilt

end Broken

end Concord
