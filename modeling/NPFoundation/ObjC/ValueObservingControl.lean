import NPFoundation.ObjC.ValueObserving

/-!
# One thread at a time

Where the threads can be, as tallies over their stacks. At any moment

* one frame is in the `@synchronized` block of an object if its lock is taken, none otherwise;
* one frame is in the `-dealloc` of an object, or of its observing object, if the object has got
  that far, none otherwise;
* each handler was requested as often as it was attached or is still to be attached.

So what a thread found out about an object in the block still holds when it acts on it: the
one that found no observing object is the one that makes it.
-/

namespace NPFoundation.ObjC.Observing

open Transition Tally

variable {τ ω η : Type}

/-! ## What a step does -/

section Steps

variable [DecidableEq τ] [DecidableEq ω] {s s' : System τ ω η} {t : τ}

/-- What thread `t` does when it goes on. -/
inductive Advance (s : System τ ω η) (t : τ) : System τ ω η → Prop where
  | synchronize (o : ω) (h : η) (rest : List (Frame ω η))
      (hframes : s.frames t = .synchronize o h :: rest) (hlock : s.locks o = none) :
      Advance s t ((s.setLock o (some t)).setStack t (.getAssociated o h :: rest))
  | absent (o : ω) (h : η) (rest : List (Frame ω η))
      (hframes : s.frames t = .getAssociated o h :: rest) (hassoc : s.associations o = none) :
      Advance s t (s.setStack t (.create o h :: rest))
  | found (o : ω) (h : η) (rest : List (Frame ω η)) (b : ℕ)
      (hframes : s.frames t = .getAssociated o h :: rest) (hassoc : s.associations o = some b) :
      Advance s t (s.setStack t (.addHandler o h b :: rest))
  | create (o : ω) (h : η) (rest : List (Frame ω η)) (hframes : s.frames t = .create o h :: rest) :
      Advance s t ((({ s.setObserving s.next (some .init) with next := s.next + 1 }.setAssociated o
        (some s.next)).note (.created o)).setStack t (.addHandler o h s.next :: rest))
  | addHandler (o : ω) (h : η) (rest : List (Frame ω η)) (b : ℕ) (v : ValueObserving η)
      (hframes : s.frames t = .addHandler o h b :: rest) (hv : s.observings b = some v) :
      Advance s t (((s.setObserving b (some (v.addObserverHandler h))).note
        (.attached o h)).setStack t (.unlock o :: rest))
  | unlock (o : ω) (rest : List (Frame ω η)) (hframes : s.frames t = .unlock o :: rest) :
      Advance s t ((s.setLock o none).setStack t rest)
  | returned (h : η) (rest : List (Frame ω η)) (hframes : s.frames t = .handling h :: rest) :
      Advance s t (s.setStack t rest)
  | destructed (o : ω) (rest : List (Frame ω η)) (hframes : s.frames t = .destruct o :: rest)
      (hassoc : s.associations o = none) :
      Advance s t ((s.setObject o .gone).setStack t rest)
  | removeAssociations (o : ω) (rest : List (Frame ω η)) (b : ℕ)
      (hframes : s.frames t = .destruct o :: rest) (hassoc : s.associations o = some b) :
      Advance s t (((s.setAssociated o none).setObject o (.calling b 0)).setStack t
        (.dealloc o :: rest))
  | call (o : ω) (rest : List (Frame ω η)) (b n : ℕ) (v : ValueObserving η) (h : η)
      (hframes : s.frames t = .dealloc o :: rest) (hlife : s.objects o = .calling b n)
      (hv : s.observings b = some v) (hnth : v.handlers[n]? = some h) :
      Advance s t (((s.setObject o (.calling b (n + 1))).note (.called (some o) h)).setStack t
        (.handling h :: .dealloc o :: rest))
  | finished (o : ω) (rest : List (Frame ω η)) (b n : ℕ) (v : ValueObserving η)
      (hframes : s.frames t = .dealloc o :: rest) (hlife : s.objects o = .calling b n)
      (hv : s.observings b = some v) (hnth : v.handlers[n]? = none) :
      Advance s t (((s.setObserving b none).setObject o .gone).setStack t rest)

theorem advance_cases (h : s.advance t = some s') : Advance s t s' := by
  unfold System.advance at h
  split at h
  · exact absurd h (by simp)
  · rename_i o hd rest hframes
    split at h
    · rename_i hlock
      obtain rfl := Option.some.inj h
      exact .synchronize o hd rest hframes hlock
    · exact absurd h (by simp)
  · rename_i o hd rest hframes
    split at h
    · rename_i hassoc
      obtain rfl := Option.some.inj h
      exact .absent o hd rest hframes hassoc
    · rename_i b hassoc
      obtain rfl := Option.some.inj h
      exact .found o hd rest b hframes hassoc
  · rename_i o hd rest hframes
    obtain rfl := Option.some.inj h
    exact .create o hd rest hframes
  · rename_i o hd b rest hframes
    split at h
    · exact absurd h (by simp)
    · rename_i v hv
      obtain rfl := Option.some.inj h
      exact .addHandler o hd rest b v hframes hv
  · rename_i o rest hframes
    obtain rfl := Option.some.inj h
    exact .unlock o rest hframes
  · rename_i hd rest hframes
    obtain rfl := Option.some.inj h
    exact .returned hd rest hframes
  · rename_i o rest hframes
    split at h
    · rename_i hassoc
      obtain rfl := Option.some.inj h
      exact .destructed o rest hframes hassoc
    · rename_i b hassoc
      obtain rfl := Option.some.inj h
      exact .removeAssociations o rest b hframes hassoc
  · rename_i o rest hframes
    split at h
    · rename_i b n hlife
      split at h
      · exact absurd h (by simp)
      · rename_i v hv
        split at h
        · rename_i hd hnth
          obtain rfl := Option.some.inj h
          exact .call o rest b n v hd hframes hlife hv hnth
        · rename_i hnth
          obtain rfl := Option.some.inj h
          exact .finished o rest b n v hframes hlife hv hnth
    · exact absurd h (by simp)

/-- What a step of the schedule does. -/
inductive Step [Fintype τ] (s : System τ ω η) : Action τ ω η → System τ ω η → Prop where
  | callNow (t : τ) (h : η) (huser : s.InUserCode t) :
      Step s (.attach t none h)
        ((s.note (.called none h)).setStack t (.handling h :: s.frames t))
  | attach (t : τ) (o : ω) (h : η) (huser : s.InUserCode t) (hlife : s.objects o = .live) :
      Step s (.attach t (some o) h)
        ((s.note (.requested o h)).setStack t (.synchronize o h :: s.frames t))
  | release (t : τ) (o : ω) (huser : s.InUserCode t) (hlife : s.objects o = .live)
      (hunused : s.Unused o) :
      Step s (.release t o) ((s.setObject o .destructing).setStack t (.destruct o :: s.frames t))
  | advance (t : τ) (s' : System τ ω η) (hadvance : Advance s t s') : Step s (.advance t) s'

theorem step_cases [Fintype τ] {a : Action τ ω η} (h : System.step s a = some s') :
    Step s a s' := by
  cases a with
  | attach t observable hd =>
      simp only [System.step, Option.ite_none_right_eq_some, Option.some.injEq] at h
      obtain ⟨⟨huser, hlife⟩, rfl⟩ := h
      cases observable with
      | none => exact .callNow t hd huser
      | some o => exact .attach t o hd huser (hlife o rfl)
  | release t o =>
      simp only [System.step, Option.ite_none_right_eq_some, Option.some.injEq] at h
      obtain ⟨⟨huser, hlife, hunused⟩, rfl⟩ := h
      exact .release t o huser hlife hunused
  | advance t => exact .advance t s' (advance_cases h)

end Steps

/-! ## What the journal says -/

/-- The handlers attached to `o`, in order. -/
def attachedTo [DecidableEq ω] (journal : List (Event ω η)) (o : ω) : List η :=
  journal.filterMap fun
    | .attached o' h => if o' = o then some h else none
    | _ => none

/-- The handlers the deallocation of `o` called, in order; for null, those that were called at
once. -/
def calledFor [DecidableEq ω] (journal : List (Event ω η)) (o : Option ω) : List η :=
  journal.filterMap fun
    | .called o' h => if o' = o then some h else none
    | _ => none

/-- The handlers that calls on `o` were made with. -/
def requestedFor [DecidableEq ω] (journal : List (Event ω η)) (o : ω) : List η :=
  journal.filterMap fun
    | .requested o' h => if o' = o then some h else none
    | _ => none

/-- How many observing objects were made for `o`. -/
def createdFor [DecidableEq ω] (journal : List (Event ω η)) (o : ω) : ℕ :=
  journal.countP fun
    | .created o' => o' = o
    | _ => false

section Journals

variable [DecidableEq ω] {journal : List (Event ω η)} {e : Event ω η} {o : ω}

@[simp] theorem attachedTo_attached (h : η) :
    attachedTo (journal ++ [.attached o h]) o = attachedTo journal o ++ [h] := by
  simp [attachedTo]

@[simp] theorem attachedTo_other (he : ∀ h, e ≠ .attached o h) :
    attachedTo (journal ++ [e]) o = attachedTo journal o := by
  cases e <;> simp_all [attachedTo]

theorem attachedTo_append (journal events : List (Event ω η)) (o : ω) :
    attachedTo (journal ++ events) o = attachedTo journal o ++ attachedTo events o :=
  List.filterMap_append

@[simp] theorem calledFor_called (o : Option ω) (h : η) :
    calledFor (journal ++ [.called o h]) o = calledFor journal o ++ [h] := by
  simp [calledFor]

@[simp] theorem calledFor_other {o : Option ω} (he : ∀ h, e ≠ .called o h) :
    calledFor (journal ++ [e]) o = calledFor journal o := by
  cases e <;> simp_all [calledFor]

@[simp] theorem requestedFor_requested (h : η) :
    requestedFor (journal ++ [.requested o h]) o = requestedFor journal o ++ [h] := by
  simp [requestedFor]

@[simp] theorem requestedFor_other (he : ∀ h, e ≠ .requested o h) :
    requestedFor (journal ++ [e]) o = requestedFor journal o := by
  cases e <;> simp_all [requestedFor]

@[simp] theorem createdFor_created :
    createdFor (journal ++ [.created o]) o = createdFor journal o + 1 := by
  simp [createdFor]

@[simp] theorem createdFor_other (he : e ≠ .created o) :
    createdFor (journal ++ [e]) o = createdFor journal o := by
  cases e <;> simp_all [createdFor]

end Journals

/-! ## Where the threads are -/

namespace Frame

/-- In the `@synchronized` block of an object. -/
def critical : Frame ω η → Option ω
  | .getAssociated o _ => some o
  | .create o _ => some o
  | .addHandler o _ _ => some o
  | .unlock o => some o
  | _ => none

/-- In the `-dealloc` of an object. -/
def destructs : Frame ω η → Option ω
  | .destruct o => some o
  | _ => none

/-- In the `-dealloc` of an observing object. -/
def deallocs : Frame ω η → Option ω
  | .dealloc o => some o
  | _ => none

/-- The handler that is still to be attached, and the object it goes to. -/
def owes : Frame ω η → Option (ω × η)
  | .synchronize o h => some (o, h)
  | .getAssociated o h => some (o, h)
  | .create o h => some (o, h)
  | .addHandler o h _ => some (o, h)
  | _ => none

end Frame

/-- The object is in its `-dealloc`. -/
def Lifetime.isDestructing : Lifetime → Bool
  | .destructing => true
  | _ => false

/-- The observing object is in its `-dealloc`. -/
def Lifetime.isCalling : Lifetime → Bool
  | .calling _ _ => true
  | _ => false

section Control

variable [Fintype τ] [DecidableEq τ] [DecidableEq ω] [DecidableEq η]
  {s s' : System τ ω η} {t : τ} {o : ω} {a : Action τ ω η}

/-- Where the threads can be. -/
structure Control (s : System τ ω η) : Prop where
  /-- Nothing is called out of `NPAttachDeallocationHandler`. -/
  below : ∀ t, ∀ F ∈ (s.frames t).tail, F.attaching = none
  /-- The lock lets one thread in. -/
  critical : ∀ o, sightings Frame.critical o s.frames = (s.locks o).isSome.toNat
  destructs : ∀ o, sightings Frame.destructs o s.frames = (s.objects o).isDestructing.toNat
  deallocs : ∀ o, sightings Frame.deallocs o s.frames = (s.objects o).isCalling.toNat
  /-- Who attaches to an object has a reference to it. -/
  referenced : ∀ t, ∀ F ∈ s.frames t, ∀ o, F.attaching = some o → s.objects o = .live
  absent : ∀ t o h, .create o h ∈ s.frames t → s.associations o = none
  found : ∀ t o h b, .addHandler o h b ∈ s.frames t → s.associations o = some b
  requests : ∀ o h, (requestedFor s.journal o).count h
    = (attachedTo s.journal o).count h + sightings Frame.owes (o, h) s.frames

attribute [local simp] System.setStack System.setObject System.setLock System.setAssociated
  System.setObserving System.note

omit [DecidableEq τ] in
theorem below_push (h : Control s) (huser : s.InUserCode t) :
    ∀ F ∈ s.frames t, F.attaching = none := by
  intro F hF
  cases hframes : s.frames t with
  | nil =>
      rw [hframes] at hF
      exact absurd hF (by simp)
  | cons G rest =>
      rw [hframes] at hF
      rcases List.mem_cons.mp hF with rfl | hF
      · have hout : F.callsOut = true := huser F (by rw [hframes]; rfl)
        cases F <;> first | rfl | exact absurd hout (by simp [Frame.callsOut])
      · exact h.below t F (by rw [hframes]; exact hF)

theorem below_step (h : Control s) (hstep : Step s a s') :
    ∀ t, ∀ F ∈ (s'.frames t).tail, F.attaching = none := by
  intro t'
  cases hstep with
  | callNow t hd huser =>
      by_cases ht : t' = t
      · subst ht
        simpa using below_push h huser
      · simpa [ht] using h.below t'
  | attach t o hd huser hlife =>
      by_cases ht : t' = t
      · subst ht
        simpa using below_push h huser
      · simpa [ht] using h.below t'
  | release t o huser hlife hunused =>
      by_cases ht : t' = t
      · subst ht
        simpa using below_push h huser
      · simpa [ht] using h.below t'
  | advance t s' hadvance =>
      have hbelow := h.below t'
      by_cases ht : t' = t
      · subst ht
        cases hadvance <;> simp_all [List.mem_of_mem_tail, Frame.attaching]
      · cases hadvance <;> simpa [ht] using hbelow

theorem critical_step (h : Control s) (hstep : Step s a s') (o : ω) :
    sightings Frame.critical o s'.frames = (s'.locks o).isSome.toNat := by
  have hold := h.critical o
  cases hstep with
  | callNow t hd huser => simpa [sightings_push, Frame.critical] using hold
  | attach t o' hd huser hlife => simpa [sightings_push, Frame.critical] using hold
  | release t o' huser hlife hunused => simpa [sightings_push, Frame.critical] using hold
  | advance t s' hadvance =>
      cases hadvance with
      | synchronize o' hd rest hframes hlock =>
          have hswap := sightings_swap Frame.critical o hframes (.getAssociated o' hd)
          by_cases ho : o = o'
          · subst ho
            simp_all [Frame.critical]
          · have ho' : ¬ o' = o := fun hc => ho hc.symm
            simp_all [Frame.critical]
      | absent o' hd rest hframes hassoc =>
          have hswap := sightings_swap Frame.critical o hframes (.create o' hd)
          simp_all [Frame.critical]
      | found o' hd rest b hframes hassoc =>
          have hswap := sightings_swap Frame.critical o hframes (.addHandler o' hd b)
          simp_all [Frame.critical]
      | create o' hd rest hframes =>
          have hswap := sightings_swap Frame.critical o hframes (.addHandler o' hd s.next)
          simp_all [Frame.critical]
      | addHandler o' hd rest b v hframes hv =>
          have hswap := sightings_swap Frame.critical o hframes (.unlock o')
          simp_all [Frame.critical]
      | unlock o' rest hframes =>
          have hpop := sightings_pop Frame.critical o hframes
          by_cases ho : o = o'
          · subst ho
            have hle := Bool.toNat_le (s.locks o).isSome
            simp_all [Frame.critical]
            omega
          · have ho' : ¬ o' = o := fun hc => ho hc.symm
            simp_all [Frame.critical]
      | returned hd rest hframes =>
          have hpop := sightings_pop Frame.critical o hframes
          simp_all [Frame.critical]
      | destructed o' rest hframes hassoc =>
          have hpop := sightings_pop Frame.critical o hframes
          simp_all [Frame.critical]
      | removeAssociations o' rest b hframes hassoc =>
          have hswap := sightings_swap Frame.critical o hframes (.dealloc o')
          simp_all [Frame.critical]
      | call o' rest b n v hd hframes hlife hv hnth =>
          rw [← hframes]
          simpa [sightings_push, Frame.critical] using hold
      | finished o' rest b n v hframes hlife hv hnth =>
          have hpop := sightings_pop Frame.critical o hframes
          simp_all [Frame.critical]

omit [DecidableEq τ] in
/-- Who is in the `-dealloc` of an object finds it there. -/
theorem Control.destructing {rest : List (Frame ω η)} (h : Control s)
    (hframes : s.frames t = .destruct o :: rest) : s.objects o = .destructing := by
  have hpos : 0 < sightings Frame.destructs o s.frames :=
    sightings_pos.mpr ⟨t, .destruct o, by rw [hframes]; exact List.mem_cons_self, rfl⟩
  rw [h.destructs o] at hpos
  cases hlife : s.objects o <;> rw [hlife] at hpos <;>
    first | rfl | exact absurd hpos (by simp [Lifetime.isDestructing])

omit [DecidableEq τ] in
/-- Who is in the `-dealloc` of the observing object of an object finds it there. -/
theorem Control.calling (h : Control s) (hmem : .dealloc o ∈ s.frames t) :
    ∃ b n, s.objects o = .calling b n := by
  have hpos : 0 < sightings Frame.deallocs o s.frames := sightings_pos.mpr ⟨t, _, hmem, rfl⟩
  rw [h.deallocs o] at hpos
  cases hlife : s.objects o with
  | calling b n => exact ⟨b, n, rfl⟩
  | _ => exact absurd hpos (by simp [hlife, Lifetime.isCalling])

theorem destructs_step (h : Control s) (hstep : Step s a s') (o : ω) :
    sightings Frame.destructs o s'.frames = (s'.objects o).isDestructing.toNat := by
  have hold := h.destructs o
  cases hstep with
  | callNow t hd huser => simpa [sightings_push, Frame.destructs] using hold
  | attach t o' hd huser hlife => simpa [sightings_push, Frame.destructs] using hold
  | release t o' huser hlife hunused =>
      by_cases ho : o = o'
      · subst ho
        simp_all [sightings_push, Frame.destructs, Lifetime.isDestructing]
      · have ho' : ¬ o' = o := fun hc => ho hc.symm
        simp_all [sightings_push, Frame.destructs]
  | advance t s' hadvance =>
      cases hadvance with
      | synchronize o' hd rest hframes hlock =>
          have hswap := sightings_swap Frame.destructs o hframes (.getAssociated o' hd)
          simp_all [Frame.destructs]
      | absent o' hd rest hframes hassoc =>
          have hswap := sightings_swap Frame.destructs o hframes (.create o' hd)
          simp_all [Frame.destructs]
      | found o' hd rest b hframes hassoc =>
          have hswap := sightings_swap Frame.destructs o hframes (.addHandler o' hd b)
          simp_all [Frame.destructs]
      | create o' hd rest hframes =>
          have hswap := sightings_swap Frame.destructs o hframes (.addHandler o' hd s.next)
          simp_all [Frame.destructs]
      | addHandler o' hd rest b v hframes hv =>
          have hswap := sightings_swap Frame.destructs o hframes (.unlock o')
          simp_all [Frame.destructs]
      | unlock o' rest hframes =>
          have hpop := sightings_pop Frame.destructs o hframes
          simp_all [Frame.destructs]
      | returned hd rest hframes =>
          have hpop := sightings_pop Frame.destructs o hframes
          simp_all [Frame.destructs]
      | destructed o' rest hframes hassoc =>
          have hpop := sightings_pop Frame.destructs o hframes
          by_cases ho : o = o'
          · subst ho
            have hle := Bool.toNat_le (s.objects o).isDestructing
            simp_all [Frame.destructs, Lifetime.isDestructing]
            omega
          · have ho' : ¬ o' = o := fun hc => ho hc.symm
            simp_all [Frame.destructs]
      | removeAssociations o' rest b hframes hassoc =>
          have hswap := sightings_swap Frame.destructs o hframes (.dealloc o')
          by_cases ho : o = o'
          · subst ho
            have hle := Bool.toNat_le (s.objects o).isDestructing
            simp_all [Frame.destructs, Lifetime.isDestructing]
            omega
          · have ho' : ¬ o' = o := fun hc => ho hc.symm
            simp_all [Frame.destructs]
      | call o' rest b n v hd hframes hlife hv hnth =>
          have hpush := sightings_push Frame.destructs o s.frames t (.handling hd)
          rw [hframes] at hpush
          by_cases ho : o = o'
          · subst ho
            simp_all [Frame.destructs, Lifetime.isDestructing]
          · simp_all [Frame.destructs]
      | finished o' rest b n v hframes hlife hv hnth =>
          have hpop := sightings_pop Frame.destructs o hframes
          by_cases ho : o = o'
          · subst ho
            simp_all [Frame.destructs, Lifetime.isDestructing]
          · simp_all [Frame.destructs]

theorem deallocs_step (h : Control s) (hstep : Step s a s') (o : ω) :
    sightings Frame.deallocs o s'.frames = (s'.objects o).isCalling.toNat := by
  have hold := h.deallocs o
  cases hstep with
  | callNow t hd huser => simpa [sightings_push, Frame.deallocs] using hold
  | attach t o' hd huser hlife => simpa [sightings_push, Frame.deallocs] using hold
  | release t o' huser hlife hunused =>
      by_cases ho : o = o'
      · subst ho
        simp_all [sightings_push, Frame.deallocs, Lifetime.isCalling]
      · simp_all [sightings_push, Frame.deallocs]
  | advance t s' hadvance =>
      cases hadvance with
      | synchronize o' hd rest hframes hlock =>
          have hswap := sightings_swap Frame.deallocs o hframes (.getAssociated o' hd)
          simp_all [Frame.deallocs]
      | absent o' hd rest hframes hassoc =>
          have hswap := sightings_swap Frame.deallocs o hframes (.create o' hd)
          simp_all [Frame.deallocs]
      | found o' hd rest b hframes hassoc =>
          have hswap := sightings_swap Frame.deallocs o hframes (.addHandler o' hd b)
          simp_all [Frame.deallocs]
      | create o' hd rest hframes =>
          have hswap := sightings_swap Frame.deallocs o hframes (.addHandler o' hd s.next)
          simp_all [Frame.deallocs]
      | addHandler o' hd rest b v hframes hv =>
          have hswap := sightings_swap Frame.deallocs o hframes (.unlock o')
          simp_all [Frame.deallocs]
      | unlock o' rest hframes =>
          have hpop := sightings_pop Frame.deallocs o hframes
          simp_all [Frame.deallocs]
      | returned hd rest hframes =>
          have hpop := sightings_pop Frame.deallocs o hframes
          simp_all [Frame.deallocs]
      | destructed o' rest hframes hassoc =>
          have hpop := sightings_pop Frame.deallocs o hframes
          by_cases ho : o = o'
          · subst ho
            have hlife := h.destructing hframes
            simp_all [Frame.deallocs, Lifetime.isCalling]
          · simp_all [Frame.deallocs]
      | removeAssociations o' rest b hframes hassoc =>
          have hswap := sightings_swap Frame.deallocs o hframes (.dealloc o')
          by_cases ho : o = o'
          · subst ho
            have hlife := h.destructing hframes
            simp_all [Frame.deallocs, Lifetime.isCalling]
          · have ho' : ¬ o' = o := fun hc => ho hc.symm
            simp_all [Frame.deallocs]
      | call o' rest b n v hd hframes hlife hv hnth =>
          have hpush := sightings_push Frame.deallocs o s.frames t (.handling hd)
          rw [hframes] at hpush
          by_cases ho : o = o'
          · subst ho
            simp_all [Frame.deallocs, Lifetime.isCalling]
          · simp_all [Frame.deallocs]
      | finished o' rest b n v hframes hlife hv hnth =>
          have hpop := sightings_pop Frame.deallocs o hframes
          by_cases ho : o = o'
          · subst ho
            simp_all [Frame.deallocs, Lifetime.isCalling]
          · have ho' : ¬ o' = o := fun hc => ho hc.symm
            simp_all [Frame.deallocs]

theorem requests_step (h : Control s) (hstep : Step s a s') (o : ω) (hd : η) :
    (requestedFor s'.journal o).count hd
      = (attachedTo s'.journal o).count hd + sightings Frame.owes (o, hd) s'.frames := by
  have hold := h.requests o hd
  cases hstep with
  | callNow t hd' huser => simpa [sightings_push, Frame.owes] using hold
  | attach t o' hd' huser hlife =>
      by_cases ho : o' = o
      · subst ho
        by_cases hh : hd' = hd
        · subst hh
          simp [sightings_push, Frame.owes, hold]
          omega
        · simp [sightings_push, Frame.owes, hold, hh, List.count_append]
      · simp [sightings_push, Frame.owes, hold, ho]
  | release t o' huser hlife hunused => simpa [sightings_push, Frame.owes] using hold
  | advance t s' hadvance =>
      cases hadvance with
      | synchronize o' hd' rest hframes hlock =>
          have hswap := sightings_swap Frame.owes (o, hd) hframes (.getAssociated o' hd')
          simp_all [Frame.owes]
      | absent o' hd' rest hframes hassoc =>
          have hswap := sightings_swap Frame.owes (o, hd) hframes (.create o' hd')
          simp_all [Frame.owes]
      | found o' hd' rest b hframes hassoc =>
          have hswap := sightings_swap Frame.owes (o, hd) hframes (.addHandler o' hd' b)
          simp_all [Frame.owes]
      | create o' hd' rest hframes =>
          have hswap := sightings_swap Frame.owes (o, hd) hframes (.addHandler o' hd' s.next)
          simp_all [Frame.owes]
      | addHandler o' hd' rest b v hframes hv =>
          -- what the thread owed is attached now
          have hswap := sightings_swap Frame.owes (o, hd) hframes (.unlock o')
          by_cases ho : o' = o
          · subst ho
            by_cases hh : hd' = hd
            · subst hh
              simp_all [Frame.owes]
              omega
            · simp_all [Frame.owes, List.count_append]
          · simp_all [Frame.owes]
      | unlock o' rest hframes =>
          have hpop := sightings_pop Frame.owes (o, hd) hframes
          simp_all [Frame.owes]
      | returned hd' rest hframes =>
          have hpop := sightings_pop Frame.owes (o, hd) hframes
          simp_all [Frame.owes]
      | destructed o' rest hframes hassoc =>
          have hpop := sightings_pop Frame.owes (o, hd) hframes
          simp_all [Frame.owes]
      | removeAssociations o' rest b hframes hassoc =>
          have hswap := sightings_swap Frame.owes (o, hd) hframes (.dealloc o')
          simp_all [Frame.owes]
      | call o' rest b n v hd' hframes hlife hv hnth =>
          have hpush := sightings_push Frame.owes (o, hd) s.frames t (.handling hd')
          rw [hframes] at hpush
          simp_all [Frame.owes]
      | finished o' rest b n v hframes hlife hv hnth =>
          have hpop := sightings_pop Frame.owes (o, hd) hframes
          simp_all [Frame.owes]

/-- An object that is alive does not change under a thread that goes on. -/
theorem Advance.live (h : Control s) (hadvance : Advance s t s') (hlife : s.objects o = .live) :
    s'.objects o = .live := by
  cases hadvance with
  | destructed o' rest hframes hassoc =>
      have hne : o ≠ o' := fun hc => by simp [h.destructing (hc ▸ hframes)] at *
      simpa [hne] using hlife
  | removeAssociations o' rest b hframes hassoc =>
      have hne : o ≠ o' := fun hc => by simp [h.destructing (hc ▸ hframes)] at *
      simpa [hne] using hlife
  | call o' rest b n v hd hframes hcalling hv hnth =>
      have hne : o ≠ o' := fun hc => by rw [hc, hcalling] at hlife; exact absurd hlife (by simp)
      simpa [hne] using hlife
  | finished o' rest b n v hframes hcalling hv hnth =>
      have hne : o ≠ o' := fun hc => by rw [hc, hcalling] at hlife; exact absurd hlife (by simp)
      simpa [hne] using hlife
  | _ => exact hlife

omit [Fintype τ] [DecidableEq η] in
/-- A frame of `NPAttachDeallocationHandler` comes from another one of the same call. -/
theorem Advance.attaching {t' : τ} {F : Frame ω η} (hadvance : Advance s t s')
    (hmem : F ∈ s'.frames t') (hF : F.attaching = some o) :
    ∃ G ∈ s.frames t', G.attaching = some o := by
  have hswap : ∀ {G H : Frame ω η} {rest : List (Frame ω η)}, s.frames t = G :: rest →
      F ∈ Function.update s.frames t (H :: rest) t' →
      H.attaching = G.attaching ∨ H.attaching = none → ∃ G ∈ s.frames t', G.attaching = some o := by
    intro G H rest hframes hmem hobject
    rcases mem_swapped hframes hmem with ⟨rfl, rfl⟩ | ⟨hold, -⟩
    · rcases hobject with hobject | hobject
      · exact ⟨G, by rw [hframes]; exact List.mem_cons_self, hobject ▸ hF⟩
      · rw [hobject] at hF
        exact absurd hF (by simp)
    · exact ⟨F, hold, hF⟩
  cases hadvance with
  | synchronize o' hd rest hframes hlock => exact hswap hframes hmem (.inl rfl)
  | absent o' hd rest hframes hassoc => exact hswap hframes hmem (.inl rfl)
  | found o' hd rest b hframes hassoc => exact hswap hframes hmem (.inl rfl)
  | create o' hd rest hframes => exact hswap hframes hmem (.inl rfl)
  | addHandler o' hd rest b v hframes hv => exact hswap hframes hmem (.inl rfl)
  | unlock o' rest hframes => exact ⟨F, (mem_popped hframes hmem).1, hF⟩
  | returned hd rest hframes => exact ⟨F, (mem_popped hframes hmem).1, hF⟩
  | destructed o' rest hframes hassoc => exact ⟨F, (mem_popped hframes hmem).1, hF⟩
  | removeAssociations o' rest b hframes hassoc => exact hswap hframes hmem (.inr rfl)
  | call o' rest b n v hd hframes hlife hv hnth =>
      rcases mem_pushed hframes hmem with ⟨rfl, rfl⟩ | hold
      · exact absurd hF (by simp [Frame.attaching])
      · exact ⟨F, hold, hF⟩
  | finished o' rest b n v hframes hlife hv hnth => exact ⟨F, (mem_popped hframes hmem).1, hF⟩

theorem referenced_step (h : Control s) (hstep : Step s a s') :
    ∀ t, ∀ F ∈ s'.frames t, ∀ o, F.attaching = some o → s'.objects o = .live := by
  intro t' F hmem o hF
  cases hstep with
  | callNow t hd huser =>
      rcases mem_pushed rfl hmem with ⟨rfl, rfl⟩ | hold
      · exact absurd hF (by simp [Frame.attaching])
      · exact h.referenced t' F hold o hF
  | attach t o' hd huser hlife =>
      rcases mem_pushed rfl hmem with ⟨rfl, rfl⟩ | hold
      · obtain rfl : o' = o := by simpa [Frame.attaching] using hF
        exact hlife
      · exact h.referenced t' F hold o hF
  | release t o' huser hlife hunused =>
      rcases mem_pushed rfl hmem with ⟨rfl, rfl⟩ | hold
      · exact absurd hF (by simp [Frame.attaching])
      · have hne : o ≠ o' := fun hc => hunused t' F hold (hc ▸ hF)
        simpa [hne] using h.referenced t' F hold o hF
  | advance t s' hadvance =>
      obtain ⟨G, hG, hobject⟩ := hadvance.attaching hmem hF
      exact hadvance.live h (h.referenced t' G hG o hobject)

omit [DecidableEq τ] in
/-- A frame in the block is at the top of its stack. -/
theorem Control.critical_top {F : Frame ω η} (h : Control s) (hmem : F ∈ s.frames t)
    (hF : F.critical = some o) : ∃ rest, s.frames t = F :: rest := by
  cases hframes : s.frames t with
  | nil =>
      rw [hframes] at hmem
      exact absurd hmem (by simp)
  | cons G rest =>
      rw [hframes] at hmem
      rcases List.mem_cons.mp hmem with rfl | hmem
      · exact ⟨rest, rfl⟩
      · have hbelow := h.below t F (by rw [hframes]; exact hmem)
        cases F <;> simp_all [Frame.critical, Frame.attaching]

omit [DecidableEq τ] in
/-- The thread at the top of its stack is alone in the block. -/
theorem Control.alone {F G : Frame ω η} {rest : List (Frame ω η)} {t' : τ} (h : Control s)
    (hframes : s.frames t = F :: rest) (hF : F.critical = some o) (hmem : G ∈ s.frames t')
    (hG : G.critical = some o) : t' = t ∧ G ∉ rest :=
  eq_of_sightings_le_one ((h.critical o).trans_le (Bool.toNat_le _)) hframes hF hmem hG

theorem absent_step (h : Control s) (hstep : Step s a s') :
    ∀ t o hd, .create o hd ∈ s'.frames t → s'.associations o = none := by
  intro t' o hd hmem
  cases hstep with
  | callNow t hd' huser =>
      rcases mem_pushed rfl hmem with ⟨rfl, hc⟩ | hold
      · exact absurd hc (by simp)
      · exact h.absent t' o hd hold
  | attach t o' hd' huser hlife =>
      rcases mem_pushed rfl hmem with ⟨rfl, hc⟩ | hold
      · exact absurd hc (by simp)
      · exact h.absent t' o hd hold
  | release t o' huser hlife hunused =>
      rcases mem_pushed rfl hmem with ⟨rfl, hc⟩ | hold
      · exact absurd hc (by simp)
      · exact h.absent t' o hd hold
  | advance t s' hadvance =>
      cases hadvance with
      | synchronize o' hd' rest hframes hlock =>
          rcases mem_swapped hframes hmem with ⟨rfl, hc⟩ | ⟨hold, -⟩
          · exact absurd hc (by simp)
          · exact h.absent t' o hd hold
      | absent o' hd' rest hframes hassoc =>
          rcases mem_swapped hframes hmem with ⟨rfl, hc⟩ | ⟨hold, -⟩
          · obtain ⟨rfl, rfl⟩ := Frame.create.inj hc
            exact hassoc
          · exact h.absent t' o hd hold
      | found o' hd' rest b hframes hassoc =>
          rcases mem_swapped hframes hmem with ⟨rfl, hc⟩ | ⟨hold, -⟩
          · exact absurd hc (by simp)
          · exact h.absent t' o hd hold
      | create o' hd' rest hframes =>
          rcases mem_swapped hframes hmem with ⟨rfl, hc⟩ | ⟨hold, hrest⟩
          · exact absurd hc (by simp)
          · have hne : o ≠ o' := by
              rintro rfl
              obtain ⟨ht, hnot⟩ := h.alone hframes rfl hold rfl
              exact hnot (hrest ht)
            simpa [hne] using h.absent t' o hd hold
      | addHandler o' hd' rest b v hframes hv =>
          rcases mem_swapped hframes hmem with ⟨rfl, hc⟩ | ⟨hold, -⟩
          · exact absurd hc (by simp)
          · exact h.absent t' o hd hold
      | unlock o' rest hframes => exact h.absent t' o hd (mem_popped hframes hmem).1
      | returned hd' rest hframes => exact h.absent t' o hd (mem_popped hframes hmem).1
      | destructed o' rest hframes hassoc => exact h.absent t' o hd (mem_popped hframes hmem).1
      | removeAssociations o' rest b hframes hassoc =>
          rcases mem_swapped hframes hmem with ⟨rfl, hc⟩ | ⟨hold, -⟩
          · exact absurd hc (by simp)
          · by_cases ho : o = o'
            · subst ho
              simp
            · simpa [ho] using h.absent t' o hd hold
      | call o' rest b n v hd' hframes hlife hv hnth =>
          rcases mem_pushed hframes hmem with ⟨rfl, hc⟩ | hold
          · exact absurd hc (by simp)
          · exact h.absent t' o hd hold
      | finished o' rest b n v hframes hlife hv hnth =>
          exact h.absent t' o hd (mem_popped hframes hmem).1

theorem found_step (h : Control s) (hstep : Step s a s') :
    ∀ t o hd b, .addHandler o hd b ∈ s'.frames t → s'.associations o = some b := by
  intro t' o hd b hmem
  cases hstep with
  | callNow t hd' huser =>
      rcases mem_pushed rfl hmem with ⟨rfl, hc⟩ | hold
      · exact absurd hc (by simp)
      · exact h.found t' o hd b hold
  | attach t o' hd' huser hlife =>
      rcases mem_pushed rfl hmem with ⟨rfl, hc⟩ | hold
      · exact absurd hc (by simp)
      · exact h.found t' o hd b hold
  | release t o' huser hlife hunused =>
      rcases mem_pushed rfl hmem with ⟨rfl, hc⟩ | hold
      · exact absurd hc (by simp)
      · exact h.found t' o hd b hold
  | advance t s' hadvance =>
      cases hadvance with
      | synchronize o' hd' rest hframes hlock =>
          rcases mem_swapped hframes hmem with ⟨rfl, hc⟩ | ⟨hold, -⟩
          · exact absurd hc (by simp)
          · exact h.found t' o hd b hold
      | absent o' hd' rest hframes hassoc =>
          rcases mem_swapped hframes hmem with ⟨rfl, hc⟩ | ⟨hold, -⟩
          · exact absurd hc (by simp)
          · exact h.found t' o hd b hold
      | found o' hd' rest b' hframes hassoc =>
          rcases mem_swapped hframes hmem with ⟨rfl, hc⟩ | ⟨hold, -⟩
          · obtain ⟨rfl, rfl, rfl⟩ := Frame.addHandler.inj hc
            exact hassoc
          · exact h.found t' o hd b hold
      | create o' hd' rest hframes =>
          rcases mem_swapped hframes hmem with ⟨rfl, hc⟩ | ⟨hold, hrest⟩
          · obtain ⟨rfl, rfl, rfl⟩ := Frame.addHandler.inj hc
            simp
          · have hne : o ≠ o' := by
              rintro rfl
              obtain ⟨ht, hnot⟩ := h.alone hframes rfl hold rfl
              exact hnot (hrest ht)
            simpa [hne] using h.found t' o hd b hold
      | addHandler o' hd' rest b' v hframes hv =>
          rcases mem_swapped hframes hmem with ⟨rfl, hc⟩ | ⟨hold, -⟩
          · exact absurd hc (by simp)
          · exact h.found t' o hd b hold
      | unlock o' rest hframes => exact h.found t' o hd b (mem_popped hframes hmem).1
      | returned hd' rest hframes => exact h.found t' o hd b (mem_popped hframes hmem).1
      | destructed o' rest hframes hassoc => exact h.found t' o hd b (mem_popped hframes hmem).1
      | removeAssociations o' rest b' hframes hassoc =>
          rcases mem_swapped hframes hmem with ⟨rfl, hc⟩ | ⟨hold, -⟩
          · exact absurd hc (by simp)
          · -- a call on the object would still have a reference to it
            have hne : o ≠ o' := by
              rintro rfl
              have hlive := h.referenced t' _ hold o rfl
              rw [h.destructing hframes] at hlive
              exact absurd hlive (by simp)
            simpa [hne] using h.found t' o hd b hold
      | call o' rest b' n v hd' hframes hlife hv hnth =>
          rcases mem_pushed hframes hmem with ⟨rfl, hc⟩ | hold
          · exact absurd hc (by simp)
          · exact h.found t' o hd b hold
      | finished o' rest b' n v hframes hlife hv hnth =>
          exact h.found t' o hd b (mem_popped hframes hmem).1

omit [DecidableEq τ] in
theorem control_start : Control (System.start : System τ ω η) where
  below _ _ hF := absurd hF (by simp [System.start])
  critical o := sightings_empty Frame.critical o
  destructs o := sightings_empty Frame.destructs o
  deallocs o := sightings_empty Frame.deallocs o
  referenced _ _ hF := absurd hF (by simp [System.start])
  absent _ _ _ hF := absurd hF (by simp [System.start])
  found _ _ _ _ hF := absurd hF (by simp [System.start])
  requests o hd := by
    have hempty := sightings_empty (ι := τ) (Frame.owes (ω := ω) (η := η)) (o, hd)
    simp [System.start, requestedFor, attachedTo, hempty]

theorem control_step (h : Control s) (hstep : Step s a s') : Control s' where
  below := below_step h hstep
  critical := critical_step h hstep
  destructs := destructs_step h hstep
  deallocs := deallocs_step h hstep
  referenced := referenced_step h hstep
  absent := absent_step h hstep
  found := found_step h hstep
  requests := requests_step h hstep

end Control

end NPFoundation.ObjC.Observing
