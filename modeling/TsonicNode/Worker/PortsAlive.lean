import TsonicNode.Worker.Ports

/-!
# Ports that keep the loop alive

`has_active_worker_threads` looks at the retained ports only, and it asks for
`closing` where `_retain_port` asks for `closed`. `Tidy` says which ports are
retained and that a closed port whose 'close' is still to come is seen by the
test, up to the ports whose turn a poll is in (`P`, of which those in `F` are
about to emit their 'close').

Three things break it: a frame other than a message that
`receive_message_on_port` takes, a transport that fails in a poll, and a send
that raises with its frame left in the queue. In runs without them the ports
keep the loop alive (`System.kept_alive`).
-/

namespace TsonicNode.Worker

/-! ## Output of a channel -/

section
variable (c : Call)

theorem store_out (data : List Byte) (h : data.length ≤ c.wanted) (memory : Bool) :
    (c.store data h memory).2.channel.out = c.channel.out := by
  unfold Call.store
  dsimp only
  split
  · rfl
  · split
    · split
      · rfl
      · split <;> rfl
    · rfl

theorem readTurn_out (outcome : Outcome) : (c.readTurn outcome).2.channel.out = c.channel.out := by
  cases outcome with
  | interrupted => rfl
  | again => rfl
  | failed errno => rfl
  | closed =>
    unfold Call.readTurn
    dsimp only
    split <;> rfl
  | moved count memory =>
    unfold Call.readTurn
    dsimp only
    split
    · rfl
    · exact store_out c _ _ memory

theorem answered_out (outcome : Outcome) : (c.answered outcome).channel.out = c.channel.out := by
  cases outcome <;> rfl

theorem readTurns_out (turns : Nat) (plan : List Outcome) :
    (Call.readTurns turns plan c).2.2.channel.out = c.channel.out := by
  induction turns generalizing plan c with
  | zero => rfl
  | succ turns ih =>
    have hturn := (readTurn_out (c.answered (plan.headD .again)) (plan.headD .again)).trans
      (answered_out c (plan.headD .again))
    unfold Call.readTurns
    split
    · rfl
    · generalize (c.answered (plan.headD .again)).readTurn (plan.headD .again) = r at hturn ⊢
      obtain ⟨status, c'⟩ := r
      cases status with
      | some status => exact hturn
      | none => exact (ih c' plan.tail).trans hturn

/-- Nothing is queued by a channel that makes progress. -/
theorem progress_out (plan : List Outcome) (h : c.channel.out = []) :
    (Call.progress plan c).2.channel.out = [] := by
  have hread : (c.readPending plan).2.2.channel.out = [] := by
    unfold Call.readPending
    split
    · exact h
    · exact (readTurns_out c 8 plan).trans h
  unfold Call.progress
  split
  · exact h
  · split
    · exact h
    · generalize c.readPending plan = r at hread ⊢
      obtain ⟨status, plan, c'⟩ := r
      cases status with
      | some status => exact hread
      | none =>
        dsimp only at hread ⊢
        have hkept : (if c'.channel.eof ∧ c'.channel.out ≠ [] then c'.failWrite .EPIPE else c') = c' :=
          if_neg fun hc => hc.2 hread
        rw [hkept]
        split
        · unfold Call.writePending
          cases plan with
          | nil => exact hread
          | cons outcome plan => simp only [Call.writeTurns, hread]
        · exact hread

end

theorem Channel.pending_progress {channel : Channel} (native : Native)
    (h : (channel.progress native).2.pending = true) : channel.pending = true := by
  unfold Channel.pending at h ⊢
  cases hout : channel.out with
  | cons frame out => rfl
  | nil =>
    have hnil := progress_out (channel.call native) native.plan hout
    rw [show (channel.progress native).2.out = [] from hnil] at h
    exact h

namespace Ports

open TsonicNode.Lib World

variable {V : Type}

/-! ## What the test sees of a port -/

/-- Closed with its 'close' still to come, and nothing that the test asks for. -/
def Hidden (port : PortState) : Prop :=
  port.worker = false ∧ port.closed = true ∧ port.closeEmitted = false ∧ port.closing = false ∧
    port.pending = false

/-- `p`, and what is in `P`. -/
def Also (P : Nat → Prop) (p : Nat) (q : Nat) : Prop := P q ∨ q = p

/-- `C` are ports that are known to be closed. -/
structure Tidy (P F C : Nat → Prop) (w : World V) : Prop where
  retained : ∀ p, (w.port p).alive = true → active (w.port p) = true → p ∈ w.retained ∨ P p
  shown : ∀ p, (w.port p).alive = true → Hidden (w.port p) → F p
  closed : ∀ p, C p → (w.port p).closed = true
  closing : ∀ p, (w.port p).closing = true → (w.port p).closed = true
  closes : ∀ p, w.closes.count p = (w.port p).closeEmitted.toNat
  unmade : ∀ p, w.made ≤ p → (w.port p).alive = false ∧ (w.port p).closeEmitted = false
  polled : ∀ p, P p → p < w.made

/-- An active port is retained by `_retain_port`. -/
theorem required_of_active {port : PortState} (hclosing : port.closing = true → port.closed = true)
    (h : active port = true) : required port = true := by
  unfold active at h
  unfold required
  revert hclosing h
  cases port.pending <;> cases port.closing <;> cases port.closed <;> cases port.closeEmitted <;>
    cases port.worker <;> cases port.exited <;> cases port.referenced <;> cases port.started <;>
    simp

section
variable {P F C : Nat → Prop} {w : World V} {p : Nat}

theorem Tidy.also (h : Tidy P F C w) (hp : p < w.made) : Tidy (Also P p) F C w :=
  { h with
    retained := fun q ha hq => (h.retained q ha hq).imp_right .inl
    polled := fun q hq => hq.elim (h.polled q) fun he => he ▸ hp }

theorem Tidy.made (h : Tidy P F C w) (ha : (w.port p).alive = true) : p < w.made := by
  by_contra hp
  rw [(h.unmade p (by omega)).1] at ha
  cases ha

theorem Tidy.hiding (h : Tidy P F C w) : Tidy P (Also F p) C w :=
  { h with shown := fun q ha hq => .inl (h.shown q ha hq) }

/-- A port that is not hidden needs no exemption. -/
theorem Tidy.showing (h : Tidy P (Also F p) C w) (hp : ¬ Hidden (w.port p)) : Tidy P F C w := by
  refine { h with shown := fun q ha hq => ?_ }
  obtain hf | rfl := h.shown q ha hq
  · exact hf
  · exact (hp hq).elim

theorem Tidy.retain (h : Tidy (Also P p) F C w) : Tidy P F C (retainPort p w) := by
  unfold retainPort
  split
  case isTrue hreq =>
    refine { h with retained := fun q ha hq => ?_, polled := fun q hq => h.polled q (.inl hq) }
    obtain hr | hP | rfl := h.retained q ha hq
    · left
      show q ∈ if p ∈ w.retained then w.retained else w.retained ++ [p]
      split
      · exact hr
      · exact List.mem_append_left _ hr
    · exact .inr hP
    · left
      show q ∈ if q ∈ w.retained then w.retained else w.retained ++ [q]
      split
      · assumption
      · exact List.mem_append_right _ (List.mem_singleton_self q)
  case isFalse hreq =>
    refine { h with retained := fun q ha hq => ?_, polled := fun q hq => h.polled q (.inl hq) }
    have hne : q ≠ p := by
      rintro rfl
      exact hreq (required_of_active (h.closing q) hq)
    obtain hr | hP | he := h.retained q ha hq
    · left
      show q ∈ w.retained.filter (· ≠ p)
      rw [List.mem_filter]
      exact ⟨hr, by simpa using hne⟩
    · exact .inr hP
    · exact (hne he).elim

/-- What one port becomes. -/
structure Becomes (P F C : Nat → Prop) (w : World V) (p : Nat) (port : PortState) : Prop where
  alive : port.alive = true → (w.port p).alive = true
  retained : port.alive = true → active port = true → p ∈ w.retained ∨ P p
  shown : port.alive = true → Hidden port → F p
  closed : (w.port p).closed = true → port.closed = true
  closing : port.closing = true → port.closed = true
  closeEmitted : port.closeEmitted = (w.port p).closeEmitted

theorem Tidy.write {f : PortState → PortState} (h : Tidy P F C w)
    (hf : Becomes P F C w p (f (w.port p))) : Tidy P F C (w.write p f) := by
  have hport : ∀ q, (w.write p f).port q = if q = p then f (w.port p) else w.port q := fun q =>
    Function.update_apply _ _ _ _
  refine ⟨fun q ha hq => ?_, fun q ha hq => ?_, fun q hq => ?_, fun q hq => ?_, fun q => ?_,
    fun q hq => ?_, h.polled⟩
  all_goals by_cases he : q = p
  · subst he
    rw [hport, if_pos rfl] at ha hq
    exact hf.retained ha hq
  · rw [hport, if_neg he] at ha hq
    exact h.retained q ha hq
  · subst he
    rw [hport, if_pos rfl] at ha hq
    exact hf.shown ha hq
  · rw [hport, if_neg he] at ha hq
    exact h.shown q ha hq
  · subst he
    rw [hport, if_pos rfl]
    exact hf.closed (h.closed q hq)
  · rw [hport, if_neg he]
    exact h.closed q hq
  · subst he
    rw [hport, if_pos rfl] at hq ⊢
    exact hf.closing hq
  · rw [hport, if_neg he] at hq ⊢
    exact h.closing q hq
  · subst he
    rw [hport, if_pos rfl, hf.closeEmitted]
    exact h.closes q
  · rw [hport, if_neg he]
    exact h.closes q
  · subst he
    have hunmade := h.unmade q hq
    rw [hport, if_pos rfl, hf.closeEmitted]
    refine ⟨?_, hunmade.2⟩
    by_contra ha
    rw [Bool.not_eq_false] at ha
    rw [hf.alive ha] at hunmade
    cases hunmade.1
  · rw [hport, if_neg he]
    exact h.unmade q hq

/-- Only the channel of `p` and inboxes differ. -/
structure Touched (p : Nat) (w t : World V) : Prop where
  port : ∃ channel, t.port = Function.update w.port p { w.port p with channel }
  made : t.made = w.made
  retained : t.retained = w.retained
  closes : t.closes = w.closes

/-- And no output was queued. -/
structure Calm (p : Nat) (w t : World V) : Prop extends Touched p w t where
  pending : (t.port p).pending = true → (w.port p).pending = true

theorem Touched.refl (p : Nat) (w : World V) : Touched p w w :=
  ⟨⟨(w.port p).channel, (Function.update_eq_self p w.port).symm⟩, rfl, rfl, rfl⟩

theorem Calm.refl (p : Nat) (w : World V) : Calm p w w := ⟨.refl p w, id⟩

theorem Touched.at {t : World V} (h : Touched p w t) :
    ∃ channel, t.port p = { w.port p with channel } := by
  obtain ⟨channel, hport⟩ := h.port
  exact ⟨channel, by rw [hport, Function.update_self]⟩

theorem Touched.trans {t u : World V} (h : Touched p w t) (h' : Touched p t u) : Touched p w u := by
  obtain ⟨channel, hport⟩ := h.port
  obtain ⟨channel', hport'⟩ := h'.port
  refine ⟨⟨channel', ?_⟩, h'.made.trans h.made, h'.retained.trans h.retained,
    h'.closes.trans h.closes⟩
  rw [hport', hport, Function.update_self, Function.update_idem]

theorem Calm.trans {t u : World V} (h : Calm p w t) (h' : Calm p t u) : Calm p w u :=
  ⟨h.toTouched.trans h'.toTouched, fun hp => h.pending (h'.pending hp)⟩

/-- A port whose channel was used, if it is still seen. -/
theorem Tidy.touch {t : World V} (h : Tidy P F C w) (ht : Touched p w t)
    (hactive : (t.port p).alive = true → active (t.port p) = true → p ∈ w.retained ∨ P p)
    (hshown : (t.port p).alive = true → Hidden (t.port p) → F p) : Tidy P F C t := by
  obtain ⟨⟨channel, hport⟩, hmade, hretained, hcloses⟩ := ht
  have hself : t.port p = { w.port p with channel } := by rw [hport, Function.update_self]
  rw [hself] at hactive hshown
  have hwrite := h.write (p := p) (f := fun port => { port with channel })
    ⟨id, hactive, hshown, id, h.closing p, rfl⟩
  refine ⟨?_, ?_, ?_, ?_, ?_, ?_, fun q hq => hmade ▸ h.polled q hq⟩
  · rw [hport, hretained]; exact hwrite.retained
  · rw [hport]; exact hwrite.shown
  · rw [hport]; exact hwrite.closed
  · rw [hport]; exact hwrite.closing
  · rw [hport, hcloses]; exact hwrite.closes
  · rw [hport, hmade]; exact hwrite.unmade

/-- An open port is not hidden. -/
theorem not_hidden_of_open {port : PortState} (h : port.closed = false) : ¬ Hidden port := by
  rintro ⟨-, hclosed, -⟩
  rw [h] at hclosed
  cases hclosed

theorem not_hidden_of_worker {port : PortState} (h : port.worker = true) : ¬ Hidden port := by
  rintro ⟨hworker, -⟩
  rw [h] at hworker
  cases hworker

theorem Calm.active {t : World V} (h : Calm p w t) (ha : active (t.port p) = true) :
    active (w.port p) = true := by
  obtain ⟨channel, hself⟩ := h.at
  have hpending := h.pending
  unfold World.active at ha ⊢
  rw [hself] at ha hpending
  cases hp : (w.port p).pending with
  | true => rfl
  | false =>
    have hp' : PortState.pending { w.port p with channel } = false := by
      rw [Bool.eq_false_iff]
      intro hp'
      rw [hpending hp'] at hp
      cases hp
    rw [hp'] at ha
    exact ha

/-- No output was queued: what was not active is not active. -/
theorem Tidy.calm {t : World V} (h : Tidy P F C w) (ht : Calm p w t)
    (hshown : (t.port p).alive = true → Hidden (t.port p) → F p) : Tidy P F C t := by
  obtain ⟨channel, hself⟩ := ht.at
  refine h.touch ht.toTouched (fun ha hactive => ?_) hshown
  exact h.retained p (by simpa [hself] using ha) (ht.active hactive)

end

/-! ## Using a channel -/

section
variable {w : World V} (p : Nat)

theorem touched_setChannel (channel : Channel) : Touched p w (setChannel p channel w) :=
  ⟨⟨_, rfl⟩, rfl, rfl, rfl⟩

theorem calm_setChannel {channel : Channel} (h : (w.port p).channel = .remote channel)
    {channel' : Channel} (hp : channel'.pending = true → channel.pending = true) :
    Calm p w (setChannel p channel' w) := by
  refine ⟨touched_setChannel p channel', fun ht => ?_⟩
  have hself : (setChannel p channel' w).port p = { w.port p with channel := .remote channel' } :=
    Function.update_self _ _ _
  rw [hself] at ht
  unfold PortState.pending
  rw [h]
  exact hp ht

theorem calm_closeChannel : Calm p w (closeChannel p w) := by
  unfold closeChannel
  split
  · exact ⟨⟨(Touched.refl p w).port, rfl, rfl, rfl⟩, id⟩
  · rename_i channel h
    exact calm_setChannel p h fun hp => by cases hp

theorem check_calm (status : Status) {t : World V} (h : Calm p w t) :
    wp (check status) (fun _ u => Calm p w u) (fun _ u => Calm p w u) t := by
  cases status <;> exact h

theorem check_same (status : Status) : wp (check status) (fun _ t => t = w) (fun _ t => t = w) w := by
  cases status <;> rfl

theorem progressChannel_calm (native : Native) :
    wp (progressChannel p native) (fun _ t => Calm p w t) (fun _ t => Calm p w t) w := by
  unfold progressChannel
  simp only [wp_bind, wp_get]
  cases h : (w.port p).channel with
  | localPair inbox peer => exact .refl p w
  | remote channel =>
    simp only [wp_bind, wp_modify]
    exact check_calm p _ (calm_setChannel p h (Channel.pending_progress native))

theorem openFrame_same (js : JsValues V) (frame : Frame) :
    wp (openFrame js frame) (fun _ t => t = w) (fun _ t => t = w) w := by
  unfold openFrame
  split
  · split <;> rfl
  · split
    · rfl
    · rw [wp_bind]
      cases js.decode frame.payload <;> rfl

theorem receiveChannel_calm (js : JsValues V) (native : Native) :
    wp (receiveChannel js p native) (fun _ t => Calm p w t) (fun _ t => Calm p w t) w := by
  unfold receiveChannel
  simp only [wp_bind, wp_get]
  cases h : (w.port p).channel with
  | localPair inbox peer =>
    dsimp only
    cases hm : (w.inbox inbox).messages with
    | nil => exact Calm.refl p w
    | cons value messages =>
      have hcalm : Calm p w
          { w with inbox := Function.update w.inbox inbox { w.inbox inbox with messages } } :=
        ⟨⟨(Touched.refl p w).port, rfl, rfl, rfl⟩, id⟩
      exact hcalm
  | remote channel =>
    simp only [wp_bind, wp_modify]
    have hprogress := calm_setChannel p h (Channel.pending_progress native)
    refine wp_mono (wp_and (check_calm p (channel.progress native).1 hprogress)
      (check_same _)) (fun _ t ht => ?_) (fun _ t ht => ht.1)
    obtain ⟨-, rfl⟩ := ht
    cases hm : (channel.progress native).2.message with
    | none => exact hprogress
    | some frame =>
      rw [wp_bind, wp_modify]
      have hchannel : ((setChannel p (channel.progress native).2 w).port p).channel =
          .remote (channel.progress native).2 := by
        show (Function.update w.port p _ p).channel = _
        rw [Function.update_self]
      have hconsume : Calm p w (setChannel p (channel.progress native).2.consume
          (setChannel p (channel.progress native).2 w)) :=
        hprogress.trans (calm_setChannel p hchannel id)
      refine wp_mono (openFrame_same js frame) (fun _ t ht => ?_) (fun _ t ht => ?_)
      · rw [ht]; exact hconsume
      · rw [ht]; exact hconsume

theorem attempt_ok {α : Type} {m : M V α} {x : α} {t : World V} (h : m w = .ok x t) :
    attempt m w = .ok (.ok x) t := by
  unfold attempt
  rw [tryCatch_run, bind_run, h]
  rfl

theorem attempt_error {α : Type} {m : M V α} {e : PortError} {t : World V} (h : m w = .error e t) :
    attempt m w = .ok (.error e) t := by
  unfold attempt
  rw [tryCatch_run, bind_run, h]
  rfl

end

/-! ## Sends -/

/-- A send that raises with its frame left as the only output. -/
def Strands (channel : Channel) (frame : Frame) (native : Native) : Prop :=
  channel.pending = false ∧ (channel.send frame native).1 ≠ none ∧
    (channel.send frame native).2.pending = true

def StrandsMessage (js : JsValues V) (p : Nat) (value : V) (native : Native) (w : World V) : Prop :=
  ∃ channel bytes, (w.port p).channel = .remote channel ∧ js.encode value = .ok bytes ∧
    Strands channel ⟨MESSAGE, bytes⟩ native

def StrandsClose (p : Nat) (native : Native) (w : World V) : Prop :=
  ∃ channel, (w.port p).channel = .remote channel ∧ Strands channel ⟨PORT_CLOSED, []⟩ native

/-- Only the channel of `p` is used, and a raise leaves no output behind unless it strands it. -/
def Sends (S : Prop) (p : Nat) (m : M V Unit) (w : World V) : Prop :=
  wp m (fun _ t => Touched p w t) (fun _ t => Touched p w t ∧ (¬ S → Calm p w t)) w

section
variable {P F C : Nat → Prop} {w : World V} {p : Nat}

theorem sendFrame_sends {channel : Channel} (h : (w.port p).channel = .remote channel)
    (frame : Frame) (native : Native) :
    Sends (Strands channel frame native) p (sendFrame p channel frame native) w := by
  unfold Sends sendFrame
  simp only [wp_bind, wp_modify]
  have htouched := touched_setChannel (w := w) p (channel.send frame native).2
  cases hs : (channel.send frame native).1 with
  | none => exact htouched
  | some status =>
    refine ⟨htouched, fun hstrands => calm_setChannel p h fun hp => ?_⟩
    by_contra hno
    exact hstrands ⟨Bool.eq_false_iff.mpr hno, by simp [hs], hp⟩

theorem sendValue_sends (js : JsValues V) (value : V) (native : Native) :
    Sends (StrandsMessage js p value native w) p (sendValue js p value native) w := by
  unfold Sends sendValue
  simp only [wp_bind, wp_get]
  cases h : (w.port p).channel with
  | localPair inbox peer =>
    dsimp only
    split
    · exact Touched.refl p w
    · split
      · exact ⟨Touched.refl p w, fun _ => .refl p w⟩
      · rw [wp_bind]
        cases js.structuredClone value with
        | error error => exact ⟨Touched.refl p w, fun _ => .refl p w⟩
        | ok clone =>
          have htouched : Touched p w
              { w with
                inbox := Function.update w.inbox peer
                  { w.inbox peer with messages := (w.inbox peer).messages ++ [clone] } } :=
            ⟨(Touched.refl p w).port, rfl, rfl, rfl⟩
          exact htouched
  | remote channel =>
    dsimp only
    rw [wp_bind]
    cases he : js.encode value with
    | error error => exact ⟨Touched.refl p w, fun _ => .refl p w⟩
    | ok bytes =>
      have hsend : Sends (Strands channel ⟨MESSAGE, bytes⟩ native) p
          (sendFrame p channel ⟨MESSAGE, bytes⟩ native) w := sendFrame_sends h _ native
      show wp (sendFrame p channel ⟨MESSAGE, bytes⟩ native) _ _ w
      refine wp_mono hsend (fun _ _ ht => ht) (fun _ t ht => ?_)
      exact ⟨ht.1, fun hno => ht.2 fun hs => hno ⟨channel, bytes, h, he, hs⟩⟩

theorem closeData_sends (native : Native) :
    Sends (StrandsClose p native w) p (closeData p native) w := by
  unfold Sends closeData
  simp only [wp_bind, wp_get]
  cases h : (w.port p).channel with
  | localPair inbox peer => exact (calm_closeChannel p).toTouched
  | remote channel =>
    dsimp only
    split
    · exact Touched.refl p w
    · refine wp_mono (sendFrame_sends h ⟨PORT_CLOSED, []⟩ native) (fun _ _ ht => ht)
        (fun _ t ht => ?_)
      exact ⟨ht.1, fun hno => ht.2 fun hs => hno ⟨channel, h, hs⟩⟩

theorem Touched.closed {t : World V} (h : Touched p w t) :
    (t.port p).closed = (w.port p).closed := by
  obtain ⟨channel, hself⟩ := h.at
  rw [hself]

theorem Touched.worker {t : World V} (h : Touched p w t) :
    (t.port p).worker = (w.port p).worker := by
  obtain ⟨channel, hself⟩ := h.at
  rw [hself]

/-- A send on an open port: returning, the port is to be retained; raising, nothing changes. -/
theorem Tidy.sends {S : Prop} {m : M V Unit} (h : Tidy P F C w)
    (ha : (w.port p).alive = true) (hopen : (w.port p).closed = false)
    (hm : Sends S p m w) (hS : p ∉ w.retained → ¬ P p → ¬ S) :
    wp m (fun _ t => Tidy (Also P p) F C t) (fun _ t => Tidy P F C t) w := by
  have hidden : ∀ {t : World V}, Touched p w t → ¬ Hidden (t.port p) := fun ht =>
    not_hidden_of_open (ht.closed.trans hopen)
  refine wp_mono hm (fun _ t ht => ?_) (fun _ t ht => ?_)
  · exact (h.also (h.made ha)).touch ht (fun _ _ => .inr (.inr rfl)) (fun _ hh => (hidden ht hh).elim)
  · obtain ⟨htouched, hcalm⟩ := ht
    refine h.touch htouched (fun ha hactive => ?_) (fun _ hh => (hidden htouched hh).elim)
    by_cases hr : p ∈ w.retained
    · exact .inl hr
    by_cases hP : P p
    · exact .inr hP
    · have hcalm := hcalm (hS hr hP)
      obtain ⟨channel, hself⟩ := htouched.at
      exact h.retained p (by simpa [hself] using ha) (hcalm.active hactive)

/-! ## The calls -/

/-- A write of `p`, while its turn or call lasts. -/
theorem Tidy.put {f : PortState → PortState} (h : Tidy (Also P p) F C w)
    (halive : (f (w.port p)).alive = (w.port p).alive)
    (hshown : (w.port p).alive = true → Hidden (f (w.port p)) → F p)
    (hclosed : (w.port p).closed = true → (f (w.port p)).closed = true)
    (hclosing : (f (w.port p)).closing = true → (f (w.port p)).closed = true)
    (hemitted : (f (w.port p)).closeEmitted = (w.port p).closeEmitted) :
    Tidy (Also P p) F C (w.write p f) :=
  h.write ⟨fun ha => by rwa [halive] at ha, fun _ _ => .inr (.inr rfl),
    fun ha hh => hshown (by rwa [halive] at ha) hh, hclosed, hclosing, hemitted⟩

theorem write_port (p : Nat) (f : PortState → PortState) (w : World V) :
    (w.write p f).port p = f (w.port p) := Function.update_self _ _ _

/-- A write after which the port is retained anew. -/
theorem Tidy.write_retain {f : PortState → PortState} (h : Tidy (Also P p) F C w)
    (halive : (f (w.port p)).alive = (w.port p).alive)
    (hshown : (w.port p).alive = true → Hidden (f (w.port p)) → F p)
    (hclosed : (w.port p).closed = true → (f (w.port p)).closed = true)
    (hclosing : (f (w.port p)).closing = true → (f (w.port p)).closed = true)
    (hemitted : (f (w.port p)).closeEmitted = (w.port p).closeEmitted) :
    Tidy P F C (retainPort p (w.write p f)) :=
  (h.put halive hshown hclosed hclosing hemitted).retain

theorem postMessage_tidy (h : Tidy P F C w) (ha : (w.port p).alive = true) (js : JsValues V) (value : V) (native : Native)
    (hS : (w.port p).closed = false → (w.port p).peerClosed = false → p ∉ w.retained → ¬ P p →
      ¬ StrandsMessage js p value native w) :
    wp (postMessage js p value native) (fun _ t => Tidy P F C t) (fun _ t => Tidy P F C t) w := by
  unfold postMessage
  simp only [wp_bind, wp_get, wp_ite]
  split
  case isTrue => exact h
  case isFalse hguard =>
    simp only [Bool.or_eq_true, not_or, Bool.not_eq_true] at hguard
    obtain ⟨⟨-, hopen⟩, hpeer⟩ := hguard
    simp only [wp_modify]
    refine wp_mono (h.sends ha hopen (sendValue_sends js value native) (hS hopen hpeer)) (fun _ t ht => ?_)
      (fun _ _ ht => ht)
    exact ht.retain

theorem retainPort_port (p : Nat) (w : World V) : (retainPort p w).port = w.port := by
  unfold retainPort
  split <;> rfl

theorem start_alive (p : Nat) (w : World V) : ((start p w).port p).alive = (w.port p).alive := by
  unfold start
  split
  · rfl
  · rw [retainPort_port, write_port]

theorem start_tidy (h : Tidy P F C w) (ha : (w.port p).alive = true) : Tidy P F C (start p w) := by
  unfold start
  split
  · exact h
  · exact (h.also (h.made ha)).write_retain rfl (h.shown p) id (h.closing p) rfl

theorem close_tidy (h : Tidy P F C w) (ha : (w.port p).alive = true) (native : Native)
    (hS : (w.port p).closed = false → p ∉ w.retained → ¬ P p → ¬ StrandsClose p native w) :
    wp (close p native) (fun _ t => Tidy P F C t) (fun _ t => Tidy P F C t) w := by
  unfold close
  simp only [wp_bind, wp_get, wp_ite]
  split
  case isTrue => exact h
  case isFalse hguard =>
    have hopen : (w.port p).closed = false := by
      simp only [Bool.or_eq_true, not_or, Bool.not_eq_true] at hguard
      exact hguard.2
    simp only [wp_modify]
    refine wp_mono (h.sends ha hopen (closeData_sends native) (hS hopen)) (fun _ t ht => ?_)
      (fun _ _ ht => ht)
    -- a closing port is seen by the test
    exact ht.write_retain rfl (fun _ hh => by cases hh.2.2.2.1) (fun _ => rfl) (fun _ => rfl) rfl

theorem refChain_tidy (h : Tidy P F C w) (ha : (w.port p).alive = true) : Tidy P F C (refChain p w) :=
  (h.also (h.made ha)).write_retain rfl (h.shown p) id (h.closing p) rfl

theorem unrefChain_tidy (h : Tidy P F C w) (ha : (w.port p).alive = true) : Tidy P F C (unrefChain p w) :=
  (h.also (h.made ha)).write_retain rfl (h.shown p) id (h.closing p) rfl

/-- Listeners do not matter. -/
theorem Tidy.events (h : Tidy P F C w) (f : List Listener → List Listener) :
    Tidy P F C (w.write p fun port => { port with events := f port.events }) :=
  h.write ⟨id, h.retained p, h.shown p, id, h.closing p, rfl⟩

theorem onCallable_tidy (h : Tidy P F C w) (ha : (w.port p).alive = true) (event : String)
    (callback : Nat) (once : Bool) :
    Tidy P F C (onCallable p event callback once w) := by
  have hevents : Tidy P F C (World.write p (fun port => { port with events := port.events ++
      [⟨event, callback, once, w.registrations⟩] })
      { w with registrations := w.registrations + 1 }) :=
    Tidy.events (w := { w with registrations := w.registrations + 1 }) { h with }
      fun events => events ++ [⟨event, callback, once, w.registrations⟩]
  unfold onCallable
  dsimp only
  split
  · have halive : ((World.write p (fun port => { port with events := port.events ++
        [⟨event, callback, once, w.registrations⟩] })
        { w with registrations := w.registrations + 1 }).port p).alive = true := by
      rw [write_port]
      exact ha
    exact refChain_tidy (start_tidy hevents halive) ((start_alive p _).trans halive)
  · exact hevents

theorem unreferenced_tidy (h : Tidy P F C w) :
    Tidy P F C (w.write p fun port => { port with referenced := false }) := by
  refine h.write ⟨id, fun ha hactive => h.retained p ha ?_, h.shown p, id, h.closing p, rfl⟩
  unfold World.active at hactive ⊢
  dsimp only at hactive
  rw [Bool.false_and, Bool.or_false] at hactive
  rw [Bool.or_eq_true]
  exact .inl hactive

theorem offCallable_tidy (h : Tidy P F C w) (ha : (w.port p).alive = true) (event : String)
    (callback : Nat) :
    Tidy P F C (offCallable p event callback w) := by
  have hevents : Tidy P F C (w.write p (PortState.remove event callback)) :=
    h.events fun events =>
      (events.reverse.eraseP fun l => l.event == event && l.callback == callback).reverse
  unfold offCallable
  dsimp only
  split
  · exact ((unreferenced_tidy hevents).also (h.made ha)).retain
  · exact (hevents.also (h.made ha)).retain

/-- A worker's port is closed with its channel. -/
theorem Tidy.shut (h : Tidy (Also P p) F C w) (hworker : (w.port p).worker = true) :
    Tidy (Also P p) F C (closeChannel p (w.write p fun port => { port with closed := true })) := by
  have hwrite : Tidy (Also P p) F C (w.write p fun port => { port with closed := true }) :=
    h.put rfl (fun _ hh => absurd hh (not_hidden_of_worker hworker)) (fun _ => rfl) (fun _ => rfl) rfl
  refine hwrite.calm (calm_closeChannel p) fun _ hh => ?_
  have hflag := hh.1
  rw [(calm_closeChannel p).worker, write_port] at hflag
  rw [show (w.port p).worker = false from hflag] at hworker
  cases hworker

theorem receiveMessageOnPort_tidy (h : Tidy P F C w) (ha : (w.port p).alive = true) (js : JsValues V) (native : Native)
    (hkind : (w.port p).closed = false → (w.port p).worker = false → ∀ packet t,
      receiveChannel js p native w = .ok (some packet) t →
        packet.kind = MESSAGE ∨ packet.kind = PORT_CLOSED ∧ (t.port p).pending = true) :
    wp (receiveMessageOnPort js p native) (fun _ t => Tidy P F C t) (fun _ t => Tidy P F C t) w := by
  unfold receiveMessageOnPort
  simp only [wp_bind, wp_get, wp_ite]
  split
  case isTrue => exact h
  case isFalse hclosed =>
    have hopen : (w.port p).closed = false := Bool.eq_false_iff.mpr hclosed
    have hreceive := receiveChannel_calm (w := w) p js native
    have htidy : ∀ {t : World V}, Calm p w t → Tidy P F C t := fun ht =>
      h.calm ht fun _ hh => (not_hidden_of_open (ht.closed.trans hopen) hh).elim
    cases hm : receiveChannel js p native w with
    | error e t =>
      rw [wp_of_error hm]
      exact htidy ((wp_of_error hm).mp hreceive)
    | ok packet t =>
      have hcalm := (wp_of_ok hm).mp hreceive
      have hmade : p < t.made := hcalm.made ▸ h.made ha
      rw [wp_of_ok hm]
      cases packet with
      | none => exact htidy hcalm
      | some packet =>
        have hkind := fun hworker => hkind hopen hworker packet t hm
        simp only [wp_ite, wp_bind, wp_modify]
        split
        case isTrue hclose =>
          -- the output that is still queued keeps the port in sight
          refine ((htidy hcalm).also hmade).write_retain rfl (fun _ hh => ?_) (fun _ => rfl) (fun _ => rfl) rfl
          obtain hmessage | ⟨-, hpending⟩ := hkind (hcalm.worker.symm.trans hh.1)
          · rw [hmessage] at hclose
            cases hclose
          · have hp : (t.port p).pending = false := hh.2.2.2.2
            rw [hpending] at hp
            cases hp
        case isFalse hclose =>
          split
          case isTrue hmessage =>
            have hworker : (t.port p).worker = true := by
              rw [hcalm.worker]
              by_contra hworker
              obtain hm' | ⟨hc, -⟩ := hkind (Bool.eq_false_iff.mpr hworker)
              · exact hmessage hm'
              · exact hclose hc
            exact (((htidy hcalm).also hmade).shut hworker).retain
          case isFalse => exact htidy hcalm

/-! ## The parts of a turn -/

/-- A write that changes nothing the test looks at, save who refers to the port. -/
def Harmless (f : PortState → PortState) : Prop :=
  ∀ port, (f port).alive = port.alive ∧ (f port).channel = port.channel ∧
    (f port).worker = port.worker ∧ (f port).closing = port.closing ∧
    (f port).closed = port.closed ∧ (f port).closeEmitted = port.closeEmitted

theorem Tidy.harmless {f : PortState → PortState} (h : Tidy (Also P p) F C w) (hf : Harmless f) :
    Tidy (Also P p) F C (w.write p f) := by
  obtain ⟨halive, hchannel, hworker, hclosing, hclosed, hemitted⟩ := hf (w.port p)
  refine h.put halive (fun ha hh => h.shown p ha ?_) (fun hc => hclosed.trans hc) ?_ hemitted
  · obtain ⟨h₁, h₂, h₃, h₄, h₅⟩ := hh
    refine ⟨hworker.symm.trans h₁, hclosed.symm.trans h₂, hemitted.symm.trans h₃,
      hclosing.symm.trans h₄, ?_⟩
    unfold PortState.pending at h₅ ⊢
    rwa [hchannel] at h₅
  · rw [hclosing, hclosed]
    exact h.closing p

/-- How a part of the turn of `p` leaves the ports. -/
def Ends (P F C : Nat → Prop) (p : Nat) : Next → World V → Prop
  | .emit .failing _ _, t => Tidy (Also P p) (Also F p) (Also C p) t
  | .emit _ _ _, t | .finished _, t => Tidy (Also P p) F C t

/-- A raise ends the turn. -/
def EndsRaising (P F C : Nat → Prop) (p : Nat) : PortError → World V → Prop :=
  fun _ t => Tidy (Also P p) F C t

theorem Tidy.emitClose (h : Tidy (Also P p) (Also F p) C w)
    (hemitted : (w.port p).closeEmitted = false) :
    Tidy (Also P p) F C (World.write p (fun port => { port with closeEmitted := true })
      { w with closes := p :: w.closes }) := by
  have hport : ∀ q, (World.write p (fun port => { port with closeEmitted := true })
      { w with closes := p :: w.closes }).port q =
        if q = p then { w.port p with closeEmitted := true } else w.port q := fun q =>
    Function.update_apply _ _ _ _
  refine ⟨fun q ha hq => ?_, fun q ha hq => ?_, fun q hq => ?_, fun q hq => ?_, fun q => ?_,
    fun q hq => ?_, h.polled⟩
  all_goals by_cases he : q = p
  · exact .inr (.inr he)
  · rw [hport, if_neg he] at ha hq
    exact h.retained q ha hq
  · rw [hport, if_pos he] at hq
    cases hq.2.2.1
  · rw [hport, if_neg he] at ha hq
    exact (h.shown q ha hq).resolve_right he
  · rw [hport, if_pos he]
    exact h.closed p (he ▸ hq)
  · rw [hport, if_neg he]
    exact h.closed q hq
  · rw [hport, if_pos he] at hq ⊢
    exact h.closing p hq
  · rw [hport, if_neg he] at hq ⊢
    exact h.closing q hq
  · rw [hport, if_pos he, he]
    show (p :: w.closes).count p = 1
    rw [List.count_cons_self, h.closes p, hemitted]
    rfl
  · rw [hport, if_neg he]
    show (p :: w.closes).count q = _
    rw [List.count_cons_of_ne (fun hpq => he hpq.symm)]
    exact h.closes q
  · have := h.polled p (.inr rfl)
    have hq : w.made ≤ p := he ▸ hq
    omega
  · rw [hport, if_neg he]
    exact h.unmade q hq

/-- The turn of a closed port ends with its 'close'. -/
theorem pollExit_ends (h : Tidy (Also P p) (Also F p) C w) (a : Answers) (worked : Bool) :
    wp (pollExit p a worked) (Ends P F C p) (EndsRaising P F C p) w := by
  unfold pollExit
  simp only [wp_bind, wp_get, wp_ite]
  split
  case isTrue hexit =>
    have hworker : (w.port p).worker = true := by
      rw [Bool.and_eq_true] at hexit
      exact hexit.1
    have hw := h.showing (not_hidden_of_worker hworker)
    cases a.exitCode with
    | error status => exact hw
    | ok code =>
      show wp (pure code : M V (Option Int)) _ _ w
      rw [wp_pure]
      have hend : ∀ t : World V, Tidy (Also P p) F C t →
          if ((t.port p).closed && (t.port p).exitCode.isSome) = true then
            Tidy (Also P p) F C (t.write p fun port => { port with exited := true })
          else Tidy (Also P p) F C t := fun t ht => by
        split
        · exact ht.harmless fun _ => ⟨rfl, rfl, rfl, rfl, rfl, rfl⟩
        · exact ht
      split
      · exact hend _ (hw.harmless fun _ => ⟨rfl, rfl, rfl, rfl, rfl, rfl⟩)
      · exact hend w hw
  case isFalse hexit =>
    simp only [wp_modify, wp_pure]
    split
    case isTrue hclose =>
      simp only [Bool.and_eq_true, Bool.not_eq_true'] at hclose
      exact h.emitClose hclose.2
    case isFalse hclose =>
      refine h.showing fun hh => hclose ?_
      obtain ⟨hworker, hclosed, hemitted, -⟩ := hh
      simp only [hworker, hclosed, hemitted]
      rfl

theorem pollReceived_ends (h : Tidy (Also P p) (Also F p) C w) (a : Answers) (worked : Bool) :
    wp (pollReceived p a worked) (Ends P F C p) (EndsRaising P F C p) w := by
  unfold pollReceived
  simp only [wp_bind, wp_get, wp_ite, wp_modify]
  have hclosed : Tidy (Also P p) (Also F p) C (w.write p fun port => { port with closed := true }) :=
    h.put rfl (fun _ _ => .inr rfl) (fun _ => rfl) (fun _ => rfl) rfl
  split
  · exact pollExit_ends hclosed a worked
  · exact pollExit_ends h a worked

/-- A failure closes the port; it raises for workers only. -/
theorem transportFailure_ends (h : Tidy (Also P p) (Also F p) C w) (error : PortError)
    (a : Answers) :
    wp (transportFailure p error a)
      (fun _ t => Tidy (Also P p) (Also F p) C t ∧ (t.port p).closed = true ∧
        (t.port p).worker = (w.port p).worker)
      (EndsRaising P F C p) w := by
  have hclosed : Tidy (Also P p) (Also F p) C (w.write p fun port => { port with closed := true }) :=
    h.put rfl (fun _ _ => .inr rfl) (fun _ => rfl) (fun _ => rfl) rfl
  have hcalm := calm_closeChannel (w := w.write p fun port => { port with closed := true }) p
  have hclose := hclosed.calm hcalm fun _ _ => .inr rfl
  have hflag := hcalm.closed
  have hworker := hcalm.worker
  rw [write_port] at hflag hworker
  unfold transportFailure
  simp only [wp_bind, wp_get, wp_modify, wp_ite]
  generalize closeChannel p (w.write p fun port => { port with closed := true }) = t at *
  split
  case isFalse => exact ⟨hclose, hflag, hworker⟩
  case isTrue hw =>
    have hraise := hclose.showing (not_hidden_of_worker hw)
    cases a.terminate with
    | some status => exact hraise
    | none =>
      show wp (pure () : M V Unit) _ _ t
      rw [wp_pure]
      split
      · exact ⟨hclose, hflag, hworker⟩
      · split
        · exact hraise
        · exact ⟨hclose, hflag, hworker⟩

/-- The failure of a worker's channel. -/
theorem pollFailure_ends (h : Tidy (Also P p) (Also F p) C w) (hworker : (w.port p).worker = true)
    (error : PortError) (a : Answers) :
    wp (pollFailure p error a) (Ends P F C p) (EndsRaising P F C p) w := by
  unfold pollFailure
  rw [wp_bind]
  refine wp_mono (transportFailure_ends h error a) (fun event t ht => ?_) (fun _ _ ht => ht)
  have ht := ht.1.showing (not_hidden_of_worker (ht.2.2.trans hworker))
  cases event <;> exact ht

theorem deliver_ends (h : Tidy (Also P p) (Also F p) C w) (hopen : (w.port p).closed = false)
    (js : JsValues V) {packet : MessagePacket V} (a : Answers)
    (hkind : (w.port p).worker = false → packet.kind = MESSAGE ∨ packet.kind = PORT_CLOSED) :
    wp (deliver js p packet a) (Ends P F C p) (EndsRaising P F C p) w := by
  have hshown := h.showing (not_hidden_of_open hopen)
  unfold deliver
  simp only [wp_bind, wp_get, wp_ite, wp_modify]
  split
  case isTrue => exact hshown
  case isFalse hmessage =>
    split
    case isTrue => exact hshown.harmless fun _ => ⟨rfl, rfl, rfl, rfl, rfl, rfl⟩
    case isFalse =>
      split
      case isTrue =>
        refine pollReceived_ends (h.put rfl (fun _ _ => .inr rfl) (fun hc => ?_) (fun hc => ?_) rfl) a true
        · simp [hc]
        · simp [h.closing p hc]
      case isFalse hclosed =>
        have hworker : (w.port p).worker = true := by
          by_contra hno
          exact (hkind (Bool.eq_false_iff.mpr hno)).elim hmessage hclosed
        split
        · cases js.stringValue packet.value with
          | none => exact pollFailure_ends h hworker _ a
          | some text =>
            dsimp only
            rw [wp_bind]
            cases text with
            | error e => exact hshown
            | ok text =>
              show wp (pure text : M V String) _ _ w
              rw [wp_pure, wp_ite]
              split <;> exact hshown
        · exact pollFailure_ends h hworker _ a

end

/-- The transport of an open port makes progress, and what it receives is a message or the peer's
close. -/
def Sturdy (js : JsValues V) (p : Nat) (a : Answers) (w : World V) : Prop :=
  ∃ t, progressChannel p a.second w = .ok ⟨⟩ t ∧ ((t.port p).started = true →
    ∃ packet u, receiveChannel js p a.receive t = .ok packet u ∧
      ∀ k ∈ packet, k.kind = MESSAGE ∨ k.kind = PORT_CLOSED)

section
variable {P F C : Nat → Prop} {w : World V} {p : Nat}

theorem pollOpen_ends (h : Tidy (Also P p) (Also F p) C w) (js : JsValues V) (a : Answers)
    (hsturdy : (w.port p).closed = false → (w.port p).worker = false → Sturdy js p a w) :
    wp (pollOpen js p a) (Ends P F C p) (EndsRaising P F C p) w := by
  unfold pollOpen
  simp only [wp_bind, wp_get, wp_ite]
  split
  case isTrue => exact pollExit_ends h a false
  case isFalse hclosed =>
    have hopen : (w.port p).closed = false := Bool.eq_false_iff.mpr hclosed
    have hprogress := progressChannel_calm (w := w) p a.second
    have hexempt : ∀ {t u : World V}, Tidy (Also P p) (Also F p) C t → Calm p t u →
        Tidy (Also P p) (Also F p) C u := fun ht hu => ht.calm hu fun _ _ => .inr rfl
    cases hm : progressChannel p a.second w with
    | error e t =>
      have hcalm := (wp_of_error hm).mp hprogress
      rw [wp_of_ok (attempt_error hm)]
      refine pollFailure_ends (hexempt h hcalm) ?_ e a
      rw [hcalm.worker]
      by_contra hworker
      obtain ⟨t, ht, -⟩ := hsturdy hopen (Bool.eq_false_iff.mpr hworker)
      rw [hm] at ht
      cases ht
    | ok _ t =>
      have hcalm := (wp_of_ok hm).mp hprogress
      have ht := hexempt h hcalm
      have htopen := hcalm.closed.trans hopen
      rw [wp_of_ok (attempt_ok hm)]
      simp only [wp_bind, wp_get, wp_ite, wp_modify]
      split
      case isTrue =>
        have hclose := hexempt ht (calm_closeChannel p)
        exact pollReceived_ends (hclose.put rfl (fun _ _ => .inr rfl) (fun _ => rfl) (fun _ => rfl) rfl)
          a false
      case isFalse =>
        split
        case isFalse => exact pollReceived_ends ht a false
        case isTrue hstarted =>
          have hreceive := receiveChannel_calm (w := t) p js a.receive
          -- what a port that is no worker receives
          have hworker : (t.port p).worker = false →
              ∃ packet u, receiveChannel js p a.receive t = .ok packet u ∧
                ∀ k ∈ packet, k.kind = MESSAGE ∨ k.kind = PORT_CLOSED := by
            intro hw
            obtain ⟨t', ht', hstart⟩ := hsturdy hopen (hcalm.worker.symm.trans hw)
            rw [hm] at ht'
            cases ht'
            exact hstart hstarted
          cases hr : receiveChannel js p a.receive t with
          | error e u =>
            have hu := (wp_of_error hr).mp hreceive
            rw [wp_of_ok (attempt_error hr)]
            refine pollFailure_ends (hexempt ht hu) ?_ e a
            rw [hu.worker]
            by_contra hno
            obtain ⟨packet, u', hok, -⟩ := hworker (Bool.eq_false_iff.mpr hno)
            rw [hr] at hok
            cases hok
          | ok packet u =>
            have hu := (wp_of_ok hr).mp hreceive
            rw [wp_of_ok (attempt_ok hr)]
            cases packet with
            | none => exact pollReceived_ends (hexempt ht hu) a false
            | some packet =>
              refine deliver_ends (hexempt ht hu) (hu.closed.trans htopen) js a fun hw => ?_
              obtain ⟨packet', u', hok, hkind⟩ := hworker (hu.worker.symm.trans hw)
              rw [hr] at hok
              cases hok
              exact hkind packet rfl

theorem pollState_ends (h : Tidy P F C w) (hmade : p < w.made) (js : JsValues V) (a : Answers)
    (hsturdy : (w.port p).closed = false → (w.port p).worker = false → Sturdy js p a w) :
    wp (pollState js p a) (Ends P F C p) (EndsRaising P F C p) w := by
  have hturn : Tidy (Also P p) (Also F p) C w := (h.also hmade).hiding
  unfold pollState
  simp only [wp_bind, wp_get, wp_ite]
  split
  case isFalse => exact pollOpen_ends hturn js a hsturdy
  case isTrue hpending =>
    have hclosed : (w.port p).closed = true := by
      rw [Bool.and_eq_true] at hpending
      exact hpending.2
    have hprogress := progressChannel_calm (w := w) p a.first
    have hopen : ∀ {t : World V}, (t.port p).closed = true → (t.port p).closed = false →
        (t.port p).worker = false → Sturdy js p a t := fun hc ho => by rw [hc] at ho; cases ho
    cases hm : progressChannel p a.first w with
    | ok _ t =>
      have hcalm := (wp_of_ok hm).mp hprogress
      rw [wp_of_ok (attempt_ok hm)]
      exact pollOpen_ends (hturn.calm hcalm fun _ _ => .inr rfl) js a
        (hopen (hcalm.closed.trans hclosed))
    | error e t =>
      have hcalm := (wp_of_error hm).mp hprogress
      rw [wp_of_ok (attempt_error hm)]
      dsimp only
      rw [wp_bind]
      refine wp_mono (transportFailure_ends (hturn.calm hcalm fun _ _ => .inr rfl) e a)
        (fun event u hu => ?_) (fun _ _ hu => hu)
      obtain ⟨hu, huclosed, -⟩ := hu
      cases event with
      | none => exact pollOpen_ends hu js a (hopen huclosed)
      | some event =>
        refine { hu with closed := fun q hq => ?_ }
        obtain hq | rfl := hq
        · exact hu.closed q hq
        · exact huclosed

end

/-! ## Making ports -/

section
variable {P F C : Nat → Prop} {w : World V}

theorem Tidy.make (h : Tidy P F C w) (hC : ∀ q, C q → P q) (channel : PortTransport)
    (worker : Bool) : Tidy (Also P w.made) F C (w.make channel worker) := by
  have hport : ∀ q, (w.make channel worker).port q =
      if q = w.made then .new channel worker else w.port q := fun q => Function.update_apply _ _ _ _
  refine ⟨fun q ha hq => ?_, fun q ha hq => ?_, fun q hq => ?_, fun q hq => ?_, fun q => ?_,
    fun q hq => ?_, fun q hq => ?_⟩
  all_goals by_cases he : q = w.made
  · exact .inr (.inr he)
  · rw [hport, if_neg he] at ha hq
    exact (h.retained q ha hq).imp_right .inl
  · rw [hport, if_pos he] at hq
    cases hq.2.1
  · rw [hport, if_neg he] at ha hq
    exact h.shown q ha hq
  · have := h.polled q (hC q hq)
    omega
  · rw [hport, if_neg he]
    exact h.closed q hq
  · rw [hport, if_pos he] at hq
    cases hq
  · rw [hport, if_neg he] at hq ⊢
    exact h.closing q hq
  · rw [hport, if_pos he, he]
    exact (h.closes w.made).trans (congrArg Bool.toNat (h.unmade w.made (Nat.le_refl _)).2)
  · rw [hport, if_neg he]
    exact h.closes q
  · have hlt : w.made + 1 ≤ q := hq
    omega
  · rw [hport, if_neg he]
    exact h.unmade q (Nat.le_of_succ_le hq)
  · exact he ▸ Nat.lt_succ_self _
  · exact Nat.lt_succ_of_lt (h.polled q (hq.resolve_right he))

theorem reservePorts_tidy (h : Tidy P F C w) (count : Nat) :
    wp (reservePorts count) (fun _ t => Tidy P F C t) (fun _ t => Tidy P F C t) w := by
  have hcompact : Tidy P F C (compactPorts w) := { h with }
  unfold reservePorts
  simp only [wp_bind, wp_get, wp_ite, wp_modify]
  split
  · split
    · exact hcompact
    · exact hcompact
  · split
    · exact h
    · exact h

theorem registerTransport_tidy (h : Tidy P F C w) (hC : ∀ q, C q → P q) (channel : PortTransport)
    (worker : Bool) :
    wp (registerTransport channel worker) (fun _ t => Tidy P F C t) (fun _ t => Tidy P F C t) w := by
  unfold registerTransport
  rw [wp_bind]
  refine wp_mono (reservePorts_tidy h 1) (fun _ t ht => ?_) (fun _ _ ht => ht)
  exact (ht.make hC channel worker).retain

theorem messageChannelNew_tidy (h : Tidy P F C w) (hC : ∀ q, C q → P q) :
    wp messageChannelNew (fun _ t => Tidy P F C t) (fun _ t => Tidy P F C t) w := by
  unfold messageChannelNew
  simp only [wp_bind, wp_get, wp_set]
  refine wp_mono (reservePorts_tidy h 2) (fun _ t ht => ?_) (fun _ _ ht => ht)
  refine wp_mono (registerTransport_tidy ?_ hC _ false) (fun _ u hu => ?_) (fun _ _ hu => hu)
  · exact { ht with }
  · exact registerTransport_tidy hu hC _ false

end

/-! ## The system -/

namespace System

def Polled (polls : List Poll) (p : Nat) : Prop := ∃ poll ∈ polls, ∃ e ∈ poll.emission, e.port = p

/-- In the event of a failure that goes before the 'close' of a port. -/
def Failing (polls : List Poll) (p : Nat) : Prop :=
  ∃ poll ∈ polls, ∃ e ∈ poll.emission, e.port = p ∧ e.point = .failing

def Sound (s : System V) : Prop := Tidy (Polled s.polls) (Failing s.polls) (Failing s.polls) s.world

section
variable {snapshot : List Nat} {e : Emission} {worked : Bool} {polls : List Poll}

theorem polled_none : Polled (⟨snapshot, none, worked⟩ :: polls) = Polled polls := by
  funext p
  simp [Polled]

theorem failing_none : Failing (⟨snapshot, none, worked⟩ :: polls) = Failing polls := by
  funext p
  simp [Failing]

theorem polled_some : Polled (⟨snapshot, some e, worked⟩ :: polls) = Also (Polled polls) e.port := by
  funext p
  have hself : (e.port = p) = (p = e.port) := propext eq_comm
  simp [Polled, Also, hself, or_comm]

theorem failing_some_of_ne (h : e.point ≠ .failing) :
    Failing (⟨snapshot, some e, worked⟩ :: polls) = Failing polls := by
  funext p
  simp [Failing, h]

theorem failing_some (h : e.point = .failing) :
    Failing (⟨snapshot, some e, worked⟩ :: polls) = Also (Failing polls) e.port := by
  funext p
  have hself : (e.port = p) = (p = e.port) := propext eq_comm
  simp [Failing, Also, h, hself, or_comm]

theorem polled_of_failing (q : Nat) (h : Failing polls q) : Polled polls q := by
  obtain ⟨poll, hpoll, e, he, hport, -⟩ := h
  exact ⟨poll, hpoll, e, he, hport⟩

end

/-! ### Turns -/

/-- A part of a turn of the innermost poll. -/
theorem settle_sound {p : Nat} {polls : List Poll} {m : M V Next} {w : World V} (poll : Poll)
    (h : wp m (Ends (Polled polls) (Failing polls) (Failing polls) p)
      (EndsRaising (Polled polls) (Failing polls) (Failing polls) p) w) :
    Sound (settle p poll polls (m w)) := by
  cases hm : m w with
  | error e t =>
    have ht : Tidy _ _ _ t := (wp_of_error hm).mp h
    exact ht.retain
  | ok next t =>
    have ht := (wp_of_ok hm).mp h
    unfold Sound
    cases next with
    | finished worked =>
      have ht : Tidy _ _ _ t := ht
      unfold settle
      dsimp only
      rw [polled_none, failing_none]
      exact ht.retain
    | emit point event worked =>
      unfold settle
      dsimp only
      rw [polled_some]
      cases point with
      | failing =>
        rw [failing_some rfl]
        exact ht
      | _ =>
        rw [failing_some_of_ne (by simp [emission])]
        exact ht

theorem finally_tidy {P F C : Nat → Prop} {w : World V} {p : Nat} (h : Tidy P F C w)
    (point : Point) : Tidy P F C (point.finally_ p w) := by
  cases point with
  | message =>
    unfold Point.finally_
    dsimp only
    split
    · exact unreferenced_tidy h
    · exact h
  | exit => exact h.events fun _ => []
  | close => exact h.events fun _ => []
  | failing => exact h
  | failed => exact h
  | plain => exact h

theorem take_tidy {P F C : Nat → Prop} {w : World V} {p : Nat} (h : Tidy P F C w)
    (listener : Listener) : Tidy P F C (take listener p w) := by
  unfold take
  split
  · exact Tidy.events (w := { w with consumed := listener.identity :: w.consumed }) { h with }
      fun events => events.filter (·.identity ≠ listener.identity)
  · exact h

/-- Behind an event the turn goes on. -/
theorem resume_ends {P F C : Nat → Prop} {w : World V} {p : Nat} {point : Point}
    (h : Tidy (Also P p) F C w) (hne : point ≠ .failing) (js : JsValues V) (a : Answers)
    (worked : Bool) :
    wp (point.resume js p a worked) (Ends P F C p) (EndsRaising P F C p) w := by
  cases point with
  | failing => exact (hne rfl).elim
  | failed => exact h
  | exit => exact h
  | close => exact h
  | message => exact pollReceived_ends h.hiding a worked
  | plain => exact pollReceived_ends h.hiding a worked

/-- Behind the failure of a closed port comes its 'close'. -/
theorem resume_failing_ends {P F C : Nat → Prop} {w : World V} {p : Nat}
    (h : Tidy (Also P p) (Also F p) (Also C p) w) (js : JsValues V) (a : Answers) (worked : Bool) :
    wp (Point.failing.resume js p a worked) (Ends P F C p) (EndsRaising P F C p) w := by
  have hclosed := h.closed p (.inr rfl)
  refine pollOpen_ends { h with closed := fun q hq => h.closed q (.inl hq) } js a fun ho => ?_
  rw [hclosed] at ho
  cases ho

/-- The port whose turn the innermost poll is about to begin. -/
def turn (s : System V) : Option Nat :=
  match s.polls with
  | ⟨p :: _, none, _⟩ :: _ => if (s.world.port p).alive then some p else none
  | _ => none

theorem go_sound {s : System V} (h : Sound s) (js : JsValues V) (a : Answers)
    (hsturdy : ∀ p, s.turn = some p → (s.world.port p).closed = false →
      (s.world.port p).worker = false → Sturdy js p a s.world) : Sound (s.go js a) := by
  obtain ⟨w, polls⟩ := s
  cases polls with
  | nil => exact h
  | cons poll polls =>
    obtain ⟨snapshot, emission, worked⟩ := poll
    cases emission with
    | none =>
      unfold Sound at h
      rw [polled_none, failing_none] at h
      cases snapshot with
      | nil => exact { h with }
      | cons p snapshot =>
        unfold go
        dsimp only
        split
        case isTrue ha =>
          refine settle_sound _ (pollState_ends h (h.made ha) js a (hsturdy p ?_))
          unfold turn
          exact if_pos ha
        case isFalse =>
          unfold Sound
          rw [polled_none, failing_none]
          exact h
    | some e =>
      obtain ⟨p, point, listeners, eworked⟩ := e
      cases listeners with
      | cons listener listeners =>
        unfold Sound go at *
        dsimp only at h ⊢
        rw [polled_some] at h ⊢
        by_cases hf : point = .failing
        · rw [failing_some hf] at h ⊢
          exact take_tidy h listener
        · rw [failing_some_of_ne hf] at h ⊢
          exact take_tidy h listener
      | nil =>
        unfold Sound at h
        rw [polled_some] at h
        by_cases hf : point = .failing
        · subst hf
          rw [failing_some rfl] at h
          exact settle_sound _ (resume_failing_ends (finally_tidy h .failing) js a eworked)
        · rw [failing_some_of_ne hf] at h
          exact settle_sound _ (resume_ends (finally_tidy h point) hf js a eworked)

theorem raise_sound {s : System V} (h : Sound s)
    (hseen : ∀ poll polls e, s.polls = poll :: polls → poll.emission = some e →
      e.point = .failing → ¬ Hidden (s.world.port e.port)) : Sound s.raise := by
  obtain ⟨w, polls⟩ := s
  cases polls with
  | nil => exact h
  | cons poll polls =>
    obtain ⟨snapshot, emission, worked⟩ := poll
    cases emission with
    | none => exact h
    | some e =>
      unfold Sound at h
      rw [polled_some] at h
      by_cases hf : e.point = .failing
      · rw [failing_some hf] at h
        have hshown := h.showing (hseen _ _ e rfl rfl hf)
        have hraise := finally_tidy (p := e.port)
          { hshown with closed := fun q hq => hshown.closed q (.inl hq) } e.point
        exact hraise.retain
      · rw [failing_some_of_ne hf] at h
        exact (finally_tidy h e.point).retain

/-- A port that nothing holds. -/
theorem drop_tidy {P F C : Nat → Prop} {w : World V} {p : Nat} (h : Tidy P F C w) :
    Tidy P F C ((closeChannel p w).write p fun port => { port with alive := false }) := by
  have hclose := h.hiding.calm (calm_closeChannel p) fun _ _ => .inr rfl
  have hdead := hclose.write (p := p) (f := fun port => { port with alive := false })
    ⟨fun ha => (by cases ha), fun ha => (by cases ha), fun ha => (by cases ha), id,
      hclose.closing p, rfl⟩
  refine { hdead with shown := fun q ha hq => ?_ }
  obtain hF | rfl := hdead.shown q ha hq
  · exact hF
  · rw [write_port] at ha
    cases ha

/-! ### Runs -/

/-- A step that keeps the ports in sight.

A send that raises does not leave its frame as the only output of a port that is not retained. What
`receive_message_on_port` takes from an open port is a message, or the peer's close while output is
still queued. A poll does not find that the transport of an open port fails. Before its 'close', a
listener raises in the failure of a port only if its `close()` was called. -/
def Keeps (js : JsValues V) (s : System V) : Label V → Prop
  | .postMessage p value native =>
    (s.world.port p).closed = false → (s.world.port p).peerClosed = false → p ∉ s.world.retained →
      ¬ s.polled p → ¬ StrandsMessage js p value native s.world
  | .close p native =>
    (s.world.port p).closed = false → p ∉ s.world.retained → ¬ s.polled p →
      ¬ StrandsClose p native s.world
  | .receiveMessageOnPort p native =>
    (s.world.port p).closed = false → (s.world.port p).worker = false → ∀ packet w,
      receiveChannel js p native s.world = .ok (some packet) w →
        packet.kind = MESSAGE ∨ packet.kind = PORT_CLOSED ∧ (w.port p).pending = true
  | .go a =>
    ∀ p, s.turn = some p → (s.world.port p).closed = false → (s.world.port p).worker = false →
      Sturdy js p a s.world
  | .raise =>
    ∀ poll polls e, s.polls = poll :: polls → poll.emission = some e → e.point = .failing →
      (s.world.port e.port).worker = true ∨ (s.world.port e.port).closing = true ∨
        (s.world.port e.port).closeEmitted = true
  | _ => True

theorem Sound.call {s : System V} {f : World V → World V} (h : Sound s) (p : Nat)
    (hf : (s.world.port p).alive = true →
      Tidy (Polled s.polls) (Failing s.polls) (Failing s.polls) (f s.world)) :
    Sound (s.call p f) := by
  unfold System.call
  split
  · exact hf ‹_›
  · exact h

theorem step_sound (js : JsValues V) (s : System V) (l : Label V) (h : Sound s)
    (hl : Keeps js s l) : Sound (s.step js l) := by
  cases l with
  | messageChannel => exact wp_final (messageChannelNew_tidy h polled_of_failing)
  | register channel worker =>
    exact wp_final (registerTransport_tidy h polled_of_failing (.remote channel) worker)
  | postMessage p value native =>
    exact h.call p fun ha => wp_final (postMessage_tidy h ha js value native hl)
  | receiveMessageOnPort p native =>
    exact h.call p fun ha => wp_final (receiveMessageOnPort_tidy h ha js native hl)
  | start p => exact h.call p fun ha => start_tidy h ha
  | close p native => exact h.call p fun ha => wp_final (close_tidy h ha native hl)
  | ref p => exact h.call p fun ha => refChain_tidy h ha
  | unref p => exact h.call p fun ha => unrefChain_tidy h ha
  | on p event callback once => exact h.call p fun ha => onCallable_tidy h ha event callback once
  | off p event callback => exact h.call p fun ha => offCallable_tidy h ha event callback
  | terminate p =>
    exact h.call p fun _ => h.write ⟨id, h.retained p, h.shown p, id, h.closing p, rfl⟩
  | drop p =>
    unfold System.step
    dsimp only
    split
    · exact h
    · exact h.call p fun _ => drop_tidy h
  | poll =>
    unfold Sound System.step
    dsimp only
    rw [polled_none, failing_none]
    exact h
  | go a => exact go_sound h js a hl
  | raise =>
    refine raise_sound h fun poll polls e hs he hpoint hh => ?_
    obtain ⟨hworker, -, hemitted, hclosing, -⟩ := hh
    obtain hw | hc | hc := hl poll polls e hs he hpoint
    · rw [hw] at hworker; cases hworker
    · rw [hc] at hclosing; cases hclosing
    · rw [hc] at hemitted; cases hemitted

theorem sound_new : Sound (new : System V) := by
  refine ⟨fun p ha => ?_, fun p ha => ?_, fun p hp => ?_, fun p hp => ?_, fun p => rfl,
    fun p _ => ⟨rfl, rfl⟩, fun p hp => ?_⟩
  · cases ha
  · cases ha
  · obtain ⟨poll, hpoll, -⟩ := hp
    cases hpoll
  · cases hp
  · obtain ⟨poll, hpoll, -⟩ := hp
    cases hpoll

/-- The ports whose turn no poll is in keep the loop alive. -/
structure KeepsAlive (s : System V) : Prop where
  retained : ∀ p, (s.world.port p).alive = true → ¬ s.polled p →
    active (s.world.port p) = true → p ∈ s.world.retained
  seen : ∀ p, (s.world.port p).alive = true → ¬ s.polled p → (s.world.port p).worker = false →
    (s.world.port p).closed = true → (s.world.port p).closeEmitted = false →
      s.world.hasActiveWorkerThreads = true
  close_once : ∀ p, s.world.closes.count p ≤ 1

theorem Sound.keepsAlive {s : System V} (h : Sound s) : KeepsAlive s := by
  have hretained : ∀ p, (s.world.port p).alive = true → ¬ s.polled p →
      active (s.world.port p) = true → p ∈ s.world.retained := fun p ha hp hactive =>
    (h.retained p ha hactive).resolve_right hp
  refine ⟨hretained, fun p ha hp hworker hclosed hemitted => ?_, fun p => ?_⟩
  · have hshown : ¬ Hidden (s.world.port p) := fun hh => hp (polled_of_failing p (h.shown p ha hh))
    have hactive : active (s.world.port p) = true := by
      unfold World.active
      rw [hworker, hemitted]
      cases hpending : (s.world.port p).pending with
      | true => rfl
      | false =>
        cases hclosing : (s.world.port p).closing with
        | true => rfl
        | false => exact (hshown ⟨hworker, hclosed, hemitted, hclosing, hpending⟩).elim
    exact List.any_eq_true.mpr ⟨p, hretained p ha hp hactive, hactive⟩
  · rw [h.closes p]
    exact Bool.toNat_le _

/-- In every run that keeps its ports in sight they keep the loop alive. -/
theorem kept_alive (js : JsValues V) (ls : List (Label V))
    (h : Meets (step js) (Keeps js) new ls) : KeepsAlive (run (step js) new ls) :=
  (run_invariant (step_sound js) sound_new h).keepsAlive

/-- Values that are all the same. -/
def units : JsValues Unit := ⟨(), .ok, fun _ => .ok [], fun _ => .ok (), fun _ => none⟩

theorem kept_alive_close :
    KeepsAlive (run (step units) new [.messageChannel, .close 0 {}]) :=
  kept_alive units [.messageChannel, .close 0 {}]
    ⟨trivial, fun _ _ _ ⟨_, h, _⟩ => (by cases h), trivial⟩

/-- The peer's close is taken by `receive_message_on_port`: the port is closed, its 'close' is not
emitted, and nothing keeps the loop alive. -/
theorem close_unseen :
    ¬ ∀ ls : List (Label Unit), KeepsAlive (run (step units) new ls) := by
  intro h
  have hrun := h [.register .new false,
    .receiveMessageOnPort 0 ⟨[1, 0, 0, 0, 4], true, [.moved 3 true, .moved 0 true]⟩]
  have hseen := hrun.seen 0 (by decide) (by decide) (by decide) (by decide) (by decide)
  exact absurd hseen (by decide)

end System

end Ports

end TsonicNode.Worker
