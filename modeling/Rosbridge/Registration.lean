import Rosbridge.Lifetime
import Rosbridge.Picojson.Serialize
import Rosbridge.Talk.Slips

/-!
# What a withdrawal withdraws

The constructor of an endpoint registers it with its head message, and the destructor withdraws it.
Each of the two messages gets an identifier of its own from `unique()`, by the default argument of
`Serializer`. An identifier makes the withdrawal that of one registration.
-/

namespace Rosbridge

open Talk

namespace Endpoint

/-- The head message, which the constructor passes to the queue. -/
def registration : Endpoint → Bytes → Serializer
  | publisher p, id => .topicAdvertise p.topic p.type id
  | subscriber s, id => .topicSubscribe s.topic s.type s.queue_size id
  | serviceServer s, id => .serviceAdvertise s.service s.type id

def nameKey : Endpoint → String
  | publisher _ => "topic"
  | subscriber _ => "topic"
  | serviceServer _ => "service"

theorem attach_eq (e : Endpoint) (id : Bytes) : e.attach id = .attach e.talker_size (e.registration id) := by
  cases e <;> rfl

theorem registration_id (e : Endpoint) (id : Bytes) :
    (e.registration id).json.read (ascii "id") = .ofString id := by
  cases e <;> simp (disch := decide) only [registration, Serializer.topicAdvertise,
    Serializer.topicSubscribe, Serializer.serviceAdvertise, Serializer.read_set_of_ne,
    Serializer.read_new_id]

theorem withdrawal_id (e : Endpoint) (id : Bytes) :
    (e.withdrawal id).json.read (ascii "id") = .ofString id := by
  cases e <;> simp (disch := decide) only [withdrawal, Serializer.topicUnadvertise,
    Serializer.topicUnsubscribe, Serializer.serviceUnadvertise, Serializer.read_set_of_ne,
    Serializer.read_new_id]

end Endpoint

namespace Lifetime

def taken (s : Lifetime) (event : Event) : Option (Nat × Slip Serializer) :=
  match s.thread.pc, event with
  | .terminated, _ => none
  | _, .client event => wire s.system event
  | _, _ => none

def sent (s : Lifetime) (session : Nat) : List (Slip Serializer) :=
  match s.stage.index.bind fun i => s.system.talkers[i]? with
  | some t => sentIn session t.log
  | none => []

/-- In a session that takes both, the withdrawal has the name and the identifier of the registration. -/
def NamesRegistration (picojson : Picojson) (e : Endpoint) (s : Lifetime) : Prop :=
  ∀ session, ∀ x ∈ s.sent session, ∀ y ∈ s.sent session, x.isHead = true → y.isWithdrawal = true →
    y.msg.json.read (ascii e.nameKey) = x.msg.json.read (ascii e.nameKey) ∧
      y.msg.id picojson = x.msg.id picojson

/-- A session that has taken one of the two messages does not take the other. -/
def Spares (s : Lifetime) (event : Event) : Prop :=
  ∀ w ∈ taken s event, s.stage.index = some w.1 → ∀ y ∈ s.sent s.system.link.session,
    (w.2.isHead = true → y.isWithdrawal = false) ∧ (w.2.isWithdrawal = true → y.isHead = false)

instance (s : Lifetime) (event : Event) : Decidable (Spares s event) := by unfold Spares; infer_instance

/-- What the destructor draws from `unique()` is not what the constructor has drawn. -/
def Fresh (events : List Event) : Prop := ∀ id, .construct id ∈ events → .destructor id ∉ events

/-! ### What a step does to the queue -/

inductive Acts (e : Endpoint) (s : Lifetime) (event : Event) (s' : Lifetime) : Prop where
  | rests (system : s'.system = s.system) (index : s'.stage.index = s.stage.index)
      (takes : taken s event = none)
  | works (own : Talk.Event Serializer) (system : s'.system = Talk.step s.system own)
      (index : s'.stage.index = s.stage.index) (takes : taken s event = wire s.system own)
      (quiet : ∀ i l, s.stage.index = some i → lane i s.system = some l →
        ∀ origin msg, label i s.system own ≠ .push origin msg)
  | pushes (i : Nat) (own : Talk.Event Serializer) (origin : Nat → Origin) (msg : Serializer)
      (here : s.stage.index = some i) (system : s'.system = Talk.step s.system own)
      (index : s'.stage.index = some i) (takes : taken s event = wire s.system own)
      (label : label i s.system own = .push origin msg)
      (brings : origin = .pushed ∨
        ∃ id, event = .destructor id ∧ origin = .withdrawal ∧ msg = e.withdrawal id)
  | constructs (id : Bytes) (event : event = .construct id) (unborn : s.stage.index = none)
      (index : s'.stage.index = some s.system.talkers.length)
      (attached : lane s.system.talkers.length s'.system =
        some (.fresh e.talker_size (e.registration id) s.system.link))

theorem acts_push {e : Endpoint} {s s' : Lifetime} {event : Event} {i : Nat} (msg : Serializer)
    (here : s.stage.index = some i) (system : s'.system = Talk.step s.system (.push i msg))
    (index : s'.stage.index = some i) (takes : taken s event = none) : Acts e s event s' :=
  .pushes i (.push i msg) .pushed msg here system index (by rw [takes]; rfl) (by simp [Talk.label]) (.inl rfl)

theorem acts_destructor (e : Endpoint) {s : Lifetime} (id : Bytes) (takes : taken s (.destructor id) = none) :
    Acts e s (.destructor id) (destructor e s id) := by
  unfold destructor
  cases stage : s.stage with
  | shutdown i =>
    exact .pushes i (.destroy i (e.withdrawal id)) .withdrawal (e.withdrawal id) (by rw [stage]; rfl) rfl rfl
      takes (by simp [Talk.label]) (.inr ⟨id, rfl, rfl, rfl⟩)
  | joined i =>
    refine .works (.abandon i) rfl (by simp [stage, Stage.index]) takes fun j l _ _ origin msg => ?_
    simp only [Talk.label]
    split <;> simp
  | pushed i =>
    dsimp only
    split <;> exact .rests rfl (by simp [stage, Stage.index]) takes
  | _ => exact .rests rfl (by simp [stage, Stage.index]) takes

theorem acts (e : Endpoint) (s : Lifetime) (event : Event) : Acts e s event (step e s event) := by
  by_cases ended : s.thread.pc = .terminated
  · rw [show step e s event = s by simp [step, ended]]
    exact .rests rfl rfl (by simp [taken, ended])
  rw [show step e s event = act e s event by
    unfold step
    split
    · rename_i over_
      exact absurd over_ ended
    · rfl]
  have silent (other : ∀ own, event ≠ .client own) : taken s event = none := by
    unfold taken
    split
    · rfl
    · exact absurd rfl (other _)
    · rfl
  cases event with
  | client own =>
    have takes : taken s (.client own) = wire s.system own := by
      cases pc : s.thread.pc with
      | terminated => exact absurd pc ended
      | _ => simp [taken, pc]
    unfold act
    dsimp only
    split
    · rename_i foreign
      have nothing : wire s.system own = none := by
        cases own with
        | talk accepts => cases foreign.1
        | _ => rfl
      exact .rests rfl rfl (takes.trans nothing)
    · rename_i foreign
      refine .works own rfl rfl takes fun i l index found => ?_
      exact quiet_of_foreign found (by rwa [← index])
  | construct id =>
    unfold act construct
    dsimp only
    split
    · rename_i unborn
      split
      · rename_i grown
        refine .constructs id rfl (by rw [unborn]; rfl) rfl ?_
        dsimp only
        rw [e.attach_eq] at grown ⊢
        exact lane_attached grown
      · exact .rests rfl rfl (silent (by simp))
    · exact .rests rfl rfl (silent (by simp))
  | publish json id =>
    unfold act
    dsimp only
    split
    · rename_i p i stage
      exact acts_push _ (by rw [stage]; rfl) rfl (by rw [stage]; rfl) (silent (by simp))
    · exact .rests rfl rfl (silent (by simp))
  | inbound msg =>
    unfold act
    dsimp only
    split <;> exact .rests rfl rfl (silent (by simp))
  | listener returned =>
    unfold act listener
    dsimp only
    split
    · rename_i kind i _ index
      cases answers : e.answer s.thread returned with
      | none => exact .rests rfl rfl (silent (by simp))
      | some msg => exact acts_push msg index rfl index (silent (by simp))
    · exact .rests rfl rfl (silent (by simp))
  | destructor id => exact acts_destructor e id (silent (by simp))

/-! ### The identifiers -/

/-- A head message has an identifier of the first kind, and a withdrawal one of the other. -/
def Proper (e : Endpoint) (P : Bytes → Prop) (x : Slip Serializer) : Prop :=
  (x.isHead = true → ∃ id, P id ∧ x.msg = e.registration id) ∧
    (x.isWithdrawal = true → ∃ id, ¬ P id ∧ x.msg = e.withdrawal id)

def Legal (P : Bytes → Prop) : Event → Prop
  | .construct id => P id
  | .destructor id => ¬ P id
  | _ => True

def Registered (e : Endpoint) (P : Bytes → Prop) (s : Lifetime) : Prop :=
  ∀ i ∈ s.stage.index, ∃ l, lane i s.system = some l ∧ EverySlip (Proper e P) l

theorem registered_step {e : Endpoint} {P : Bytes → Prop} {s : Lifetime} {event : Event}
    (h : Registered e P s) (legal : Legal P event) : Registered e P (step e s event) := by
  have acts := acts e s event
  generalize step e s event = s' at acts
  intro i there
  cases acts with
  | rests system index takes =>
    rw [index] at there
    rw [system]
    exact h i there
  | works own system index takes quiet =>
    rw [index] at there
    obtain ⟨l, found, every⟩ := h i there
    rw [system]
    exact ⟨_, lane_kept found own, everySlip_step every (quiet i l there found)⟩
  | pushes j own origin msg here system index takes label brings =>
    obtain rfl : j = i := Option.some.inj (index.symm.trans there)
    obtain ⟨l, found, every⟩ := h j here
    rw [system]
    refine ⟨_, lane_kept found own, ?_⟩
    rw [label]
    apply everySlip_push every
    rcases brings with rfl | ⟨id, rfl, rfl, rfl⟩
    · exact ⟨fun isHead => (by cases isHead), fun withdrawal => (by cases withdrawal)⟩
    · exact ⟨fun isHead => (by cases isHead), fun _ => ⟨id, legal, rfl⟩⟩
  | constructs id event unborn index attached =>
    obtain rfl : s.system.talkers.length = i := Option.some.inj (index.symm.trans there)
    subst event
    refine ⟨_, attached, everySlip_fresh ?_ _⟩
    exact ⟨fun _ => ⟨id, legal, rfl⟩, fun withdrawal => (by cases withdrawal)⟩

/-! ### The sessions that take both -/

def Apart (xs : List (Slip Serializer)) : Prop :=
  ∀ x ∈ xs, ∀ y ∈ xs, x.isHead = true → y.isWithdrawal = false

theorem apart_concat {xs : List (Slip Serializer)} {x : Slip Serializer} :
    Apart (xs ++ [x]) ↔ Apart xs ∧
      ∀ y ∈ xs, (x.isHead = true → y.isWithdrawal = false) ∧ (x.isWithdrawal = true → y.isHead = false) := by
  constructor
  · intro apart
    refine ⟨fun a first b second => apart a (List.mem_append_left _ first) b (List.mem_append_left _ second),
      fun y member => ⟨?_, fun withdrawal => ?_⟩⟩
    · exact apart x (List.mem_append_right _ List.mem_cons_self) y (List.mem_append_left _ member)
    · by_contra isHead
      have away := apart y (List.mem_append_left _ member) x (List.mem_append_right _ List.mem_cons_self)
        (by simpa using isHead)
      rw [withdrawal] at away
      cases away
  · rintro ⟨apart, new⟩ a first b second isHead
    rw [List.mem_append, List.mem_singleton] at first second
    rcases first with first | rfl <;> rcases second with second | rfl
    · exact apart a first b second isHead
    · by_contra withdrawal
      have away := (new a first).2 (by simpa using withdrawal)
      rw [isHead] at away
      cases away
    · exact (new b second).1 isHead
    · by_contra withdrawal
      rw [not_head_of_withdrawal (by simpa using withdrawal)] at isHead
      cases isHead

def NoBoth (s : Lifetime) : Prop := ∀ session, Apart (s.sent session)

theorem sent_of_lane {s : Lifetime} {i : Nat} {l : Lane Serializer} (index : s.stage.index = some i)
    (here : lane i s.system = some l) (session : Nat) : s.sent session = sentIn session l.talker.log := by
  obtain ⟨found, -, -, -⟩ := lane_eq_some here
  simp [sent, index, found]

theorem sent_unborn {s : Lifetime} (index : s.stage.index = none) (session : Nat) : s.sent session = [] := by
  simp [sent, index]

theorem noBoth_unborn {s : Lifetime} (index : s.stage.index = none) : NoBoth s := by
  intro session x member
  rw [sent_unborn index] at member
  cases member

theorem noBoth_congr {s s' : Lifetime} (same : ∀ session, s'.sent session = s.sent session) :
    NoBoth s' ↔ NoBoth s := by
  simp only [NoBoth, same]

/-- One session takes one more message. -/
theorem noBoth_concat {s s' : Lifetime} {current : Nat} {x : Slip Serializer}
    (takes : s'.sent current = s.sent current ++ [x])
    (other : ∀ session, session ≠ current → s'.sent session = s.sent session) :
    NoBoth s' ↔ NoBoth s ∧ ∀ y ∈ s.sent current,
      (x.isHead = true → y.isWithdrawal = false) ∧ (x.isWithdrawal = true → y.isHead = false) := by
  constructor
  · intro both
    have here := both current
    rw [takes, apart_concat] at here
    refine ⟨fun session => ?_, here.2⟩
    by_cases same : session = current
    · exact same ▸ here.1
    · have there := both session
      rwa [other session same] at there
  · rintro ⟨both, new⟩ session
    by_cases same : session = current
    · rw [same, takes, apart_concat]
      exact ⟨both _, new⟩
    · rw [other session same]
      exact both session

theorem noBoth_own {s s' : Lifetime} {event : Event} {own : Talk.Event Serializer}
    (attached : ∀ i ∈ s.stage.index, ∃ l, lane i s.system = some l)
    (system : s'.system = Talk.step s.system own) (index : s'.stage.index = s.stage.index)
    (takes : taken s event = wire s.system own) : NoBoth s' ↔ NoBoth s ∧ Spares s event := by
  cases here : s.stage.index with
  | none =>
    refine iff_of_true (noBoth_unborn (index.trans here)) ⟨noBoth_unborn here, fun w _ there => ?_⟩
    rw [here] at there
    cases there
  | some i =>
    obtain ⟨l, found⟩ := attached i here
    have kept : lane i s'.system = some (l.step (label i s.system own)) := by
      rw [system]
      exact lane_kept found own
    have grown (session : Nat) : s'.sent session = s.sent session ++ heard i session s.system own := by
      rw [sent_of_lane (index.trans here) kept, sent_of_lane here found]
      exact sentIn_step found own session
    rw [Spares, takes, here]
    by_cases takes_own : ∃ x, wire s.system own = some (i, x)
    · obtain ⟨x, wired⟩ := takes_own
      have now : s'.sent s.system.link.session = s.sent s.system.link.session ++ [x] := by
        rw [grown]
        simp [heard, wired]
      have other (session : Nat) (different : session ≠ s.system.link.session) :
          s'.sent session = s.sent session := by
        rw [grown]
        simp [heard, wired, different.symm]
      rw [noBoth_concat now other, wired]
      simp
    · have nothing (session : Nat) : s'.sent session = s.sent session := by
        rw [grown]
        cases wired : wire s.system own with
        | none => simp [heard, wired]
        | some w =>
          have different : w.1 ≠ i := by
            rintro rfl
            exact takes_own ⟨w.2, wired⟩
          simp [heard, wired, different]
      rw [noBoth_congr nothing]
      refine (and_iff_left fun w wired same => ?_).symm
      obtain rfl := Option.some.inj same
      exact absurd ⟨w.2, wired⟩ takes_own

theorem noBoth_step {e : Endpoint} {P : Bytes → Prop} {s : Lifetime} (h : Registered e P s) (event : Event) :
    NoBoth (step e s event) ↔ NoBoth s ∧ Spares s event := by
  have acts := acts e s event
  generalize step e s event = s' at acts
  have attached : ∀ i ∈ s.stage.index, ∃ l, lane i s.system = some l := fun i here => by
    obtain ⟨l, found, -⟩ := h i here
    exact ⟨l, found⟩
  cases acts with
  | rests system index takes =>
    have same : NoBoth s' ↔ NoBoth s := by simp only [NoBoth, sent, system, index]
    rw [same]
    exact (and_iff_left fun w taken => by rw [takes] at taken; cases taken).symm
  | works own system index takes quiet => exact noBoth_own attached system index takes
  | pushes i own origin msg here system index takes label brings =>
    exact noBoth_own attached system (index.trans here.symm) takes
  | constructs id event unborn index attached =>
    refine iff_of_true (fun session => ?_) ⟨noBoth_unborn unborn, fun w _ there => ?_⟩
    · rw [sent_of_lane index attached]
      intro x member
      simp [Lane.fresh, Talker.new, sentIn] at member
    · rw [unborn] at there
      cases there

/-- The two messages have different identifiers. -/
theorem namesRegistration_iff {picojson : Picojson} {e : Endpoint} {P : Bytes → Prop} {s : Lifetime}
    (h : Registered e P s) : NamesRegistration picojson e s ↔ NoBoth s := by
  have apart (session : Nat) {x y : Slip Serializer} (first : x ∈ s.sent session) (second : y ∈ s.sent session)
      (isHead : x.isHead = true) (withdrawal : y.isWithdrawal = true) : y.msg.id picojson ≠ x.msg.id picojson := by
    cases index : s.stage.index with
    | none =>
      rw [sent_unborn index] at first
      cases first
    | some i =>
      obtain ⟨l, here, every⟩ := h i index
      rw [sent_of_lane index here] at first second
      obtain ⟨id, known, registered⟩ := (every.sent session x first).1 isHead
      obtain ⟨id', unknown, withdrawn⟩ := (every.sent session y second).2 withdrawal
      rw [registered, withdrawn, Serializer.id_eq picojson (e.registration_id id),
        Serializer.id_eq picojson (e.withdrawal_id id')]
      rintro rfl
      exact unknown known
  constructor
  · intro names session x first y second isHead
    by_contra withdrawal
    have isWithdrawal : y.isWithdrawal = true := by simpa using withdrawal
    exact apart session first second isHead isWithdrawal
      (names session x first y second isHead isWithdrawal).2
  · intro both session x first y second isHead withdrawal
    rw [both session x first y second isHead] at withdrawal
    cases withdrawal

/-- The withdrawal names what it withdraws in exactly the runs in which no session takes both
messages: with fresh identifiers it never names the registration. -/
theorem withdrawal_names_registration_iff (picojson : Picojson) (e : Endpoint) (events : List Event)
    (fresh : Fresh events) :
    NamesRegistration picojson e (run e start events) ↔ Machine.Along (step e) Spares start events := by
  let P (id : Bytes) : Prop := .construct id ∈ events
  have keep : ∀ s event, Registered e P s → Legal P event → Registered e P (step e s event) :=
    fun s event h legal => registered_step h legal
  have initially : Registered e P start := by
    intro i index
    cases index
  have legal : Machine.Along (step e) (fun _ event => Legal P event) start events := by
    apply Machine.along_of_forall
    intro event member
    cases event with
    | construct id => exact member
    | destructor id => exact fun drawn => fresh id drawn member
    | _ => trivial
  have registered : Registered e P (run e start events) := Machine.invariant_along keep initially legal
  rw [namesRegistration_iff registered]
  have whole := @Machine.run_iff_along Lifetime Event (step e) (Registered e P) NoBoth
    (fun _ event => Legal P event) Spares keep (fun s event h _ => noBoth_step h event) start events
    initially legal
  exact whole.trans (and_iff_right (noBoth_unborn rfl))

def subscriber : Endpoint := .subscriber { topic := ascii "/chatter", type := ascii "std_msgs/String" }

/-- The endpoint is destroyed while it is connected, and its withdrawal is sent. -/
def unregistered : List Event := registered ++ destroys 2 ++ clients (talks 8) ++ listens 1 ++ destroys 3

/-- The withdrawal does not have the identifier of the registration. -/
def misnamed (picojson : Picojson) (s : Lifetime) (session : Nat) : Bool :=
  (s.sent session).any fun x => (s.sent session).any fun y =>
    x.isHead && y.isWithdrawal && y.msg.id picojson != x.msg.id picojson

theorem not_names_of_misnamed {picojson : Picojson} {e : Endpoint} {s : Lifetime} (session : Nat)
    (mis : misnamed picojson s session = true) : ¬ NamesRegistration picojson e s := by
  intro names
  obtain ⟨x, first, second⟩ := List.any_eq_true.mp mis
  obtain ⟨y, second, found⟩ := List.any_eq_true.mp second
  simp only [Bool.and_eq_true, bne_iff_ne] at found
  exact found.2 (names session x first y second found.1.1 found.1.2).2

theorem unregistered_is_misnamed :
    ¬ NamesRegistration picojson.package publisher (run publisher start unregistered) ∧
      ¬ NamesRegistration picojson.package subscriber (run subscriber start unregistered) := by
  constructor
  · exact not_names_of_misnamed 1 (by decide +kernel)
  · exact not_names_of_misnamed 1 (by decide +kernel)

/-- The connection is lost before the withdrawal is sent. -/
def cut : List Event := registered ++ destroys 2 ++ clients [.link .closed] ++ clients (talks 8) ++ destroys 3

theorem withdrawal_names_registration_cut :
    NamesRegistration picojson.package publisher (run publisher start cut) := by
  have fresh : Fresh cut := by
    intro id drawn
    have first : id = ascii "1" := by simpa [cut, registered, clients, destroys] using drawn
    simp [cut, registered, clients, destroys, first, ascii]
  exact (withdrawal_names_registration_iff picojson.package publisher cut fresh).mpr (by decide +kernel)

end Lifetime

end Rosbridge
