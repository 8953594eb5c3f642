import Mathlib.Logic.Function.Basic
import Concord.Proofs.Reconcile.Loops
import Concord.Proofs.Universe.ServedRoots
import Concord.Universe.Installation

/-! Two sites whose backends may be anything, in the surroundings in which trees of a kind are
reconciled. With both backends in memory this is an installation. Main statements: serving roots
serves just these on both sides, and no question, pass or pause changes that or takes a tree away.
-/

namespace Concord

/-- A site for each side, whatever its backend is, and the sink that statuses are reported to. -/
structure Deployment (β : Side → Type) where
  site : (side : Side) → Site (β side)
  sink : StatusSink := {}

namespace Deployment

variable {β : Side → Type}

-----------------------------------------------------------------------------------------
-- The surroundings
-----------------------------------------------------------------------------------------

/-- Puts a site in the place of the one of a side. -/
def setSite (d : Deployment β) (side : Side) (s : Site (β side)) : Deployment β :=
  { d with site := Function.update d.site side s }

section Surroundings

variable [∀ side, Backend (β side)]

/-- Waits until no worker of a side has anything to do. -/
def restSide (d : Deployment β) (side : Side) : Deployment β :=
  d.setSite side (d.site side).wakeAll.rest

/-- Lets a number of milliseconds pass. -/
def sleep (d : Deployment β) (millis : Nat) : Deployment β :=
  { d with site := fun side => (d.site side).wakeAll.sleep millis }

/-- Does something with the site of a side. If that waits, the workers of the other side run too. -/
def waiting {α : Type} (d : Deployment β) (side : Side) (waits : Bool)
    (f : Site (β side) → α × Site (β side)) : α × Deployment β :=
  let (result, s) := f (d.site side).wakeAll
  let d := d.setSite side s
  (result, if waits then d.restSide side.other else d)

/-- Serves exactly these roots in the pool of a kind on one side. -/
def serve (kind : TreeKind) (side : Side) (roots : List String) (d : Deployment β)
    : Except ReconcileError Unit × Deployment β :=
  let waits := ((d.site side).served kind).any fun root => !roots.contains root
  d.waiting side waits fun s => (.ok (), s.serve kind roots)

/-- Waits until the trees of a kind on one side show every change so far. -/
def settle (kind : TreeKind) (side : Side) (d : Deployment β)
    : Except ReconcileError Unit × Deployment β :=
  d.waiting side (!((d.site side).pool kind).isEmpty) fun s => s.viewSettle kind

/-- Has the tree of a root and kind on one side rebuilt. -/
def reset (kind : TreeKind) (side : Side) (root : String) (d : Deployment β)
    : Except ReconcileError Unit × Deployment β :=
  d.waiting side ((d.site side).slot? kind root).isSome fun s => s.viewReset kind [root]

/-- How the pools of a kind and the sink answer. -/
def ask (kind : TreeKind) (q : Question) (d : Deployment β) : Reply q.Answer × Deployment β :=
  match q with
  | .tree side root => (.answered ((d.site side).viewTree kind root), d)
  | .resources keys => (Installation.replyOf ((d.site .desired).viewResources kind keys), d)
  | .resourcesForDelete keys =>
      (Installation.replyOf ((d.site .observed).viewResourcesForDelete kind keys), d)
  | .report transitions =>
      let (reply, sink) := d.sink.report transitions
      (reply, { d with sink })
  | .push batch =>
      let (result, s) := (d.site .observed).viewPush kind batch
      (Installation.replyOf result, d.setSite .observed s)
  | .reset side root =>
      let (result, d) := d.reset kind side root
      (Installation.replyOf result, d)

/-- The surroundings in which trees of a kind are reconciled. -/
def surroundings (kind : TreeKind) : Surroundings (Deployment β) where
  roots side d := (d.site side).roots kind
  ask := ask kind
  serve := serve kind
  settle := settle kind

end Surroundings

-----------------------------------------------------------------------------------------
-- Installations
-----------------------------------------------------------------------------------------

/-- An installation as a deployment with both backends in memory. -/
def of (i : Installation) : Deployment fun _ => Memory where
  site := i.site
  sink := i.sink

variable {i : Installation}

theorem of_setSite (side : Side) (s : Site Memory)
    : of (i.setSite side s) = (of i).setSite side s := by
  have sites : (i.setSite side s).site = Function.update i.site side s := by
    funext other
    cases side <;> cases other <;> rfl
  have sink : (i.setSite side s).sink = i.sink := by cases side <;> rfl
  rw [of, setSite, sites, sink]
  rfl

theorem of_restSide (i : Installation) (side : Side)
    : of (i.restSide side) = (of i).restSide side :=
  of_setSite side _

theorem of_waiting {α : Type} (side : Side) (waits : Bool) (f : Site Memory → α × Site Memory)
    : (of i).waiting side waits f
      = ((i.waiting side waits f).1, of (i.waiting side waits f).2) := by
  have first : of (i.setSite side (f (i.site side).wakeAll).2)
      = (of i).setSite side (f ((of i).site side).wakeAll).2 :=
    of_setSite side _
  simp only [waiting, Installation.waiting, ← first]
  cases waits with
  | false => rfl
  | true => exact Prod.ext rfl (of_restSide _ _).symm

/-- The surroundings of an installation are those of the deployment. -/
theorem pictured_of (kind : TreeKind)
    : (Installation.surroundings kind).Pictured of (surroundings kind) where
  roots _ _ := rfl
  ask question i := by
    cases question with
    | tree | resources | resourcesForDelete | report => rfl
    | push batch => exact Prod.ext rfl (of_setSite .observed _).symm
    | reset side root =>
        have same : (of i).reset kind side root
            = ((i.reset kind side root).1, of (i.reset kind side root).2) :=
          of_waiting side _ _
        change (Installation.replyOf ((of i).reset kind side root).1,
          ((of i).reset kind side root).2) = _
        rw [same]
        rfl
  serve side roots i := by
    have same : (of i).serve kind side roots
        = ((i.serve kind side roots).1, of (i.serve kind side roots).2) :=
      of_waiting side (((i.site side).served kind).any fun root => !roots.contains root)
        fun s => (Except.ok (), s.serve kind roots)
    exact same
  settle side i := by
    have same : (of i).settle kind side
        = ((i.settle kind side).1, of (i.settle kind side).2) :=
      of_waiting side _ _
    exact same

theorem of_sleep (i : Installation) (millis : Nat) : (of i).sleep millis = of (i.sleep millis) := by
  have sites : (fun side => (i.site side).wakeAll.sleep millis) = (i.sleep millis).site := by
    funext side
    cases side <;> rfl
  rw [sleep, of, of, ← sites]
  rfl

/-- What a loop comes to in an installation it comes to in the deployment. -/
theorem loop_of (kind : TreeKind) (config : LoopConfig) (goal : LoopGoal) (stop : Option Nat)
    (told : Bool) (now : Instant) (r : Reconciler) (i : Installation)
    : r.loop (surroundings kind) (fun millis d => d.sleep millis) config goal stop told now (of i)
      = let ended := r.loop (Installation.surroundings kind) (fun millis i => i.sleep millis)
          config goal stop told now i
        (ended.1, (ended.2.1, of ended.2.2)) :=
  (pictured_of kind).loop (fun millis i => of_sleep i millis) config goal stop told r i

-----------------------------------------------------------------------------------------
-- What stays
-----------------------------------------------------------------------------------------

variable {d d' d'' : Deployment β} {kind : TreeKind} {side : Side} {roots : List String}

/-- Both sites go on serving the same trees, and what has a tree keeps one. -/
def Stays (d d' : Deployment β) : Prop :=
  ∀ side, (d.site side).Stays (d'.site side)

/-- Every tree of both sites has one worker. -/
def Distinct (d : Deployment β) : Prop :=
  ∀ side, (d.site side).ids.Nodup

/-- Both pools of a kind serve just these roots. -/
def Serves (d : Deployment β) (kind : TreeKind) (roots : List String) : Prop :=
  ∀ side, (d.site side).Serves kind roots

theorem Stays.refl (d : Deployment β) : d.Stays d :=
  fun side => .refl (d.site side)

theorem Stays.trans (h : d.Stays d') (h' : d'.Stays d'') : d.Stays d'' :=
  fun side => (h side).trans (h' side)

theorem Distinct.stays (h : d.Distinct) (stays : d.Stays d') : d'.Distinct :=
  fun side => (stays side).ids ▸ h side

theorem Distinct.wakeAll (h : d.Distinct) (side : Side) : (d.site side).wakeAll.ids.Nodup :=
  ((d.site side).stays_wakeAll).ids ▸ h side

theorem Serves.distinct (h : d.Serves kind roots) : d.Distinct :=
  fun side => (h side).distinct

theorem Serves.stays (h : d.Serves kind roots) (stays : d.Stays d') : d'.Serves kind roots :=
  fun side => (h side).stays (stays side)

theorem site_setSite_self (d : Deployment β) (s : Site (β side))
    : (d.setSite side s).site side = s := by
  simp only [setSite, Function.update_self]

theorem site_setSite_ne {other : Side} (h : other ≠ side) (d : Deployment β) (s : Site (β side))
    : (d.setSite side s).site other = d.site other := by
  simp only [setSite, ne_eq, h, not_false_eq_true, Function.update_of_ne]

theorem stays_setSite {s : Site (β side)} (stays : (d.site side).Stays s)
    : d.Stays (d.setSite side s) := by
  intro other
  by_cases here : other = side
  · subst here
    rwa [site_setSite_self]
  · rw [site_setSite_ne here]
    exact .refl _

variable [∀ side, Backend (β side)]

theorem stays_restSide (d : Deployment β) (side : Side) : d.Stays (d.restSide side) :=
  stays_setSite (((d.site side).stays_wakeAll).trans (Site.stays_rest _))

/-- While someone waits for the workers of one side, those of the other side run too. -/
theorem stays_waiting {α : Type} {f : Site (β side) → α × Site (β side)} (waits : Bool)
    (h : (d.site side).wakeAll.Stays (f (d.site side).wakeAll).2)
    : d.Stays (d.waiting side waits f).2 := by
  have first : d.Stays (d.setSite side (f (d.site side).wakeAll).2) :=
    stays_setSite (((d.site side).stays_wakeAll).trans h)
  rw [waiting]
  dsimp only
  split
  · exact first.trans (stays_restSide _ _)
  · exact first

theorem stays_sleep (d : Deployment β) (millis : Nat) : d.Stays (d.sleep millis) :=
  fun side => ((d.site side).stays_wakeAll).trans (Site.stays_sleep _ millis)

theorem stays_settle (distinct : d.Distinct) (kind : TreeKind) (side : Side)
    : d.Stays (settle kind side d).2 := by
  have settled : (d.site side).wakeAll.Stays ((d.site side).wakeAll.viewSettle kind).2 :=
    Site.stays_settle (distinct.wakeAll side) kind
  exact stays_waiting _ settled

theorem stays_reset (d : Deployment β) (kind : TreeKind) (side : Side) (root : String)
    : d.Stays (reset kind side root d).2 := by
  have rebuilt : (d.site side).wakeAll.Stays ((d.site side).wakeAll.viewReset kind [root]).2 :=
    Site.stays_reset _ kind [root]
  exact stays_waiting _ rebuilt

/-- Whatever is asked, both sites stay. -/
theorem stays_ask (kind : TreeKind) (question : Question) (d : Deployment β)
    : d.Stays (ask kind question d).2 := by
  cases question with
  | tree | resources | resourcesForDelete => exact .refl d
  | report transitions => exact fun side => .refl (d.site side)
  | push batch => exact stays_setSite (Site.stays_of_slots rfl)
  | reset side root => exact stays_reset d kind side root

-----------------------------------------------------------------------------------------
-- Serving
-----------------------------------------------------------------------------------------

/-- Serving roots on one side serves them there, and the other side stays. -/
theorem serve_side (distinct : d.Distinct) (kind : TreeKind) (side : Side) (apart : roots.Nodup)
    : ((serve kind side roots d).2.site side).Serves kind roots
      ∧ ∀ other, other ≠ side → (d.site other).Stays ((serve kind side roots d).2.site other) := by
  have served := Site.serves_serve (distinct.wakeAll side) kind apart
  rw [serve, waiting]
  dsimp only
  split
  · have rests := stays_restSide
      (d.setSite side ((d.site side).wakeAll.serve kind roots)) side.other
    refine ⟨?_, fun other ne => ?_⟩
    · refine Site.Serves.stays ?_ (rests side)
      rwa [site_setSite_self]
    · have stays := rests other
      rwa [site_setSite_ne ne] at stays
  · refine ⟨?_, fun other ne => ?_⟩
    · rwa [site_setSite_self]
    · rw [site_setSite_ne ne]
      exact .refl _

/-- A reconciler that is told to serve roots has them served on both sides. -/
theorem serves_serve (distinct : d.Distinct) (kind : TreeKind) (apart : roots.Nodup)
    (r : Reconciler)
    : (r.serve (surroundings kind) roots d).1.1 = .ok ()
      ∧ (r.serve (surroundings kind) roots d).2.Serves kind roots := by
  obtain ⟨desired, others⟩ := serve_side distinct kind .desired apart
  have between : (serve kind .desired roots d).2.Distinct := by
    intro side
    cases side with
    | desired => exact desired.distinct
    | observed => exact (others .observed (by decide)).ids ▸ distinct .observed
  obtain ⟨observed, others⟩ := serve_side between kind .observed apart
  refine ⟨rfl, fun side => ?_⟩
  cases side with
  | desired => exact desired.stays (others .desired (by decide))
  | observed => exact observed

-----------------------------------------------------------------------------------------
-- Passes
-----------------------------------------------------------------------------------------

/-- Work on a root, by induction on its questions. -/
theorem stays_run {α : Type} (kind : TreeKind) (root : String) (p : Program α) (d : Deployment β)
    : d.Stays (p.run (surroundings kind) root d).2 := by
  induction p generalizing d with
  | finished ledger a => exact .refl d
  | asking ledger question next ih =>
      rw [Program.run]
      have first := stays_ask kind question d
      rcases asked : (surroundings kind).ask question d with ⟨reply, d'⟩
      have replied : ask kind question d = (reply, d') := asked
      rw [replied] at first
      cases reply with
      | answered answer => exact first.trans (ih ledger answer d')
      | failed e => exact first
      | panicked => exact first

/-- A pass, by induction on its roots. -/
theorem stays_pass (kind : TreeKind) (now : Instant) (r : Reconciler) (d : Deployment β)
    : d.Stays (r.pass (surroundings kind) now d).2 := by
  refine List.foldlRecOn (motive := fun state : (PassReport × Reconciler) × Deployment β =>
    d.Stays state.2) _ _ (.refl d) fun state stays root _ => stays.trans ?_
  obtain ⟨⟨report, r⟩, d'⟩ := state
  have worked := stays_run kind root
    (RootPass.program r.config.trackerLimits root now (r.ledger root)) d'
  rw [Reconciler.passRoot]
  rcases ran : (RootPass.program r.config.trackerLimits root now (r.ledger root)).run
    (surroundings kind) root d' with ⟨⟨result, ledger⟩, d''⟩
  rw [ran] at worked
  cases result <;> exact worked

/-- A pass in a loop, with the wait after it. -/
theorem stays_step (distinct : d.Distinct) (kind : TreeKind) (now : Instant) (r : Reconciler)
    : d.Stays (Reconciler.step (surroundings kind) now (r, d)).2.2 := by
  have passed := stays_pass kind now r d
  rw [Reconciler.step, Reconciler.passAndSettle]
  dsimp only
  rcases made : r.pass (surroundings kind) now d with ⟨⟨report, r'⟩, d'⟩
  rw [made] at passed
  dsimp only at passed ⊢
  split
  · exact passed
  · have first := passed.trans (stays_settle (distinct.stays passed) kind .desired)
    rw [Reconciler.settle]
    rcases settled : (surroundings kind).settle .desired d' with ⟨result, d₁⟩
    have desired : settle kind .desired d' = (result, d₁) := settled
    rw [desired] at first
    cases result with
    | error e => exact first
    | ok _ =>
        have second := first.trans (stays_settle (distinct.stays first) kind .observed)
        dsimp only
        rcases settled : (surroundings kind).settle .observed d₁ with ⟨result, d₂⟩
        have observed : settle kind .observed d₁ = (result, d₂) := settled
        rw [observed] at second
        cases result <;> exact second

/-- Any number of passes with a pause after each, by induction on the number: while both sites stay
in every pause, they stay all along.
-/
theorem stays_afterPasses {rest : Nat → Deployment β → Deployment β}
    (waits : ∀ millis (d : Deployment β), d.Stays (rest millis d)) (config : LoopConfig)
    (kind : TreeKind) (now : Instant) (count : Nat) (distinct : d.Distinct) (r : Reconciler)
    : d.Stays (Reconciler.afterPasses (surroundings kind) rest config now count (r, d)).2 := by
  induction count generalizing d r with
  | zero => exact .refl d
  | succ count ih =>
      have first := (stays_step distinct kind now r).trans
        (waits (pauseOf config.busyInterval.millis) _)
      rw [Reconciler.afterPasses, Function.iterate_succ_apply]
      exact first.trans (ih (distinct.stays first) _)

end Deployment

end Concord
