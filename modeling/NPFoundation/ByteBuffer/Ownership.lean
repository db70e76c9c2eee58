import NPFoundation.Lib.Run
import NPFoundation.ByteBuffer.Storage

/-!
# Who owns which region

Every storage of a program, shared or not, has a region of its own or none. `Owned` says
so for a family of storages under any names, and that the allocator's log is one a strict
allocator would accept: `replay` checks each call against what is live.

Every function of a storage replaces one member of the family by another, and leaves
alone what the others own. `Replaces` is what it has to show for that.
-/

namespace NPFoundation

open Transition

/-! ## The protocol of an allocator -/

/-- One call, checked against the lengths of what is live: no request for nothing, nothing given
out twice, and only what is live is passed back, with its length. -/
def AllocatorCall.replay (live : Address → Option Size) :
    AllocatorCall → Option (Address → Option Size)
  | .allocate len none => if len ≠ 0 then some live else none
  | .allocate len (some p) =>
      if len ≠ 0 ∧ live p = none then some (Function.update live p (some len)) else none
  | .reallocate p len none => if len ≠ 0 ∧ (live p).isSome then some live else none
  | .reallocate p len (some q) =>
      if len ≠ 0 ∧ (live p).isSome ∧ (q = p ∨ live q = none) then
        some (Function.update (Function.update live p none) q (some len))
      else none
  | .deallocate p len => if live p = some len then some (Function.update live p none) else none

/-- A log that respects the protocol, and what is live after it. -/
def replay (live : Address → Option Size) (log : List AllocatorCall) :
    Option (Address → Option Size) :=
  run AllocatorCall.replay live log

/-- The lengths a strict allocator knows are those of the regions. -/
def Agrees (live : Address → Option Size) (m : Memory) : Prop :=
  ∀ p, (live p).map BitVec.toNat = (m.regions p).map List.length

theorem Agrees.isSome {live : Address → Option Size} {m : Memory} {p : Address}
    (h : Agrees live m) : (live p).isSome = (m.regions p).isSome := by
  have hp := congrArg Option.isSome (h p)
  simpa using hp

theorem Agrees.eq_none {live : Address → Option Size} {m : Memory} {p : Address}
    (h : Agrees live m) (hp : m.regions p = none) : live p = none := by
  have hlen := h p
  rw [hp] at hlen
  simpa using hlen

/-! ## Ownership -/

/-- The region a storage has, if there is a storage and it has one. -/
def pointer (e : Option ByteBufferStorage) : Option Address := e.bind (·.bytes)

/-- What is in the block of a storage. -/
def ByteBufferStorage.contents (m : Memory) (e : ByteBufferStorage) : Option Region :=
  e.bytes.bind m.regions

variable {Ω : Type} [DecidableEq Ω] {a : ByteBufferAllocator} {m m' : Memory}
  {elems : Ω → Option ByteBufferStorage} {o : Ω} {e e' : ByteBufferStorage}

/-- Each storage has a region of its own, as long as its capacity says, or none; every region has
a storage; and the log respects the protocol. -/
structure Owned (m : Memory) (elems : Ω → Option ByteBufferStorage) : Prop where
  block : ∀ {o e p}, elems o = some e → e.bytes = some p →
    ∃ cells, m.regions p = some cells ∧ cells.length = e.capacity.toNat ∧ 0 < cells.length
  null : ∀ {o e}, elems o = some e → e.bytes = none → e.capacity = 0
  unshared : ∀ {o o' p}, pointer (elems o) = some p → pointer (elems o') = some p → o = o'
  owner : ∀ {p cells}, m.regions p = some cells → ∃ o, pointer (elems o) = some p
  fresh : ∀ {p}, m.next ≤ p → m.regions p = none
  log : ∃ live, replay (fun _ => none) m.log = some live ∧ Agrees live m

omit [DecidableEq Ω] in
theorem Owned.live (h : Owned m elems) {p : Address} (hp : pointer (elems o) = some p) :
    ∃ cells, m.regions p = some cells := by
  obtain ⟨e, he, hb⟩ := Option.bind_eq_some_iff.mp hp
  obtain ⟨cells, hcells, -⟩ := h.block he hb
  exact ⟨cells, hcells⟩

omit [DecidableEq Ω] in
/-- A storage with a block has as many cells as its capacity says. -/
theorem Owned.contents (h : Owned m elems) (he : elems o = some e) {p : Address}
    (hp : e.bytes = some p) :
    ∃ cells, m.regions p = some cells ∧ e.contents m = some cells
      ∧ cells.length = e.capacity.toNat ∧ 0 < cells.length := by
  obtain ⟨cells, hcells, hlen, hpos⟩ := h.block he hp
  exact ⟨cells, hcells, by rw [ByteBufferStorage.contents, hp]; exact hcells, hlen, hpos⟩

/-- Memory changes so that one storage can take the place of another. -/
structure Replaces (m m' : Memory) (old new : Option ByteBufferStorage) : Prop where
  block : ∀ {e p}, new = some e → e.bytes = some p →
    ∃ cells, m'.regions p = some cells ∧ cells.length = e.capacity.toNat ∧ 0 < cells.length
  null : ∀ {e}, new = some e → e.bytes = none → e.capacity = 0
  /-- Its region is the old one's, or nobody's. -/
  taken : ∀ {p}, pointer new = some p → pointer old = some p ∨ m.regions p = none
  frame : ∀ {p}, pointer old ≠ some p → pointer new ≠ some p → m'.regions p = m.regions p
  gone : ∀ {p}, pointer old = some p → pointer new ≠ some p → m'.regions p = none
  fresh : (∀ {p}, m.next ≤ p → m.regions p = none) → ∀ {p}, m'.next ≤ p → m'.regions p = none
  log : ∃ calls, m'.log = m.log ++ calls ∧ ∀ live, Agrees live m →
    ∃ live', replay live calls = some live' ∧ Agrees live' m'

theorem Owned.replace {old new : Option ByteBufferStorage} (h : Owned m elems)
    (ho : elems o = old) (hr : Replaces m m' old new) : Owned m' (Function.update elems o new) := by
  -- what another storage owns is neither the old region nor the new one
  have hother : ∀ {o' p}, o' ≠ o → pointer (elems o') = some p →
      pointer old ≠ some p ∧ pointer new ≠ some p := by
    intro o' p hne hp
    have hold : pointer old ≠ some p := fun heq => hne (h.unshared hp (by rw [ho]; exact heq))
    refine ⟨hold, fun heq => ?_⟩
    obtain ⟨cells, hcells⟩ := h.live hp
    rcases hr.taken heq with h₁ | h₁
    · exact hold h₁
    · rw [hcells] at h₁
      exact absurd h₁ (by simp)
  refine ⟨?_, ?_, ?_, ?_, hr.fresh h.fresh, ?_⟩
  · intro o' e p he hp
    rcases eq_or_ne o' o with rfl | hne
    · rw [Function.update_self] at he
      exact hr.block he hp
    · rw [Function.update_of_ne hne] at he
      obtain ⟨cells, hcells, hlen⟩ := h.block he hp
      obtain ⟨h₁, h₂⟩ := hother hne (p := p) (by rw [he]; exact hp)
      exact ⟨cells, (hr.frame h₁ h₂).trans hcells, hlen⟩
  · intro o' e he hp
    rcases eq_or_ne o' o with rfl | hne
    · rw [Function.update_self] at he
      exact hr.null he hp
    · rw [Function.update_of_ne hne] at he
      exact h.null he hp
  · intro o₁ o₂ p h₁ h₂
    rcases eq_or_ne o₁ o with rfl | hne₁ <;> rcases eq_or_ne o₂ o₁ with rfl | hne₂
    · rfl
    · rw [Function.update_self] at h₁
      rw [Function.update_of_ne hne₂] at h₂
      exact absurd h₁ (hother hne₂ h₂).2
    · rfl
    · rw [Function.update_of_ne hne₁] at h₁
      rcases eq_or_ne o₂ o with rfl | hne
      · rw [Function.update_self] at h₂
        exact absurd h₂ (hother hne₁ h₁).2
      · rw [Function.update_of_ne hne] at h₂
        exact h.unshared h₁ h₂
  · intro p cells hcells
    by_cases hnew : pointer new = some p
    · exact ⟨o, by rw [Function.update_self]; exact hnew⟩
    by_cases hold : pointer old = some p
    · rw [hr.gone hold hnew] at hcells
      exact absurd hcells (by simp)
    · rw [hr.frame hold hnew] at hcells
      obtain ⟨o', ho'⟩ := h.owner hcells
      have hne : o' ≠ o := by
        intro heq
        rw [heq, ho] at ho'
        exact hold ho'
      exact ⟨o', by rw [Function.update_of_ne hne]; exact ho'⟩
  · obtain ⟨live, hlive, hagrees⟩ := h.log
    obtain ⟨calls, hcalls, hreplay⟩ := hr.log
    obtain ⟨live', hlive', hagrees'⟩ := hreplay live hagrees
    exact ⟨live', by rw [hcalls]; exact run_append_some.mpr ⟨live, hlive, hlive'⟩, hagrees'⟩

omit [DecidableEq Ω] in
/-- The other storages keep what is in their blocks. -/
theorem Replaces.contents_eq {old new : Option ByteBufferStorage} (hr : Replaces m m' old new)
    (h : Owned m elems) (ho : elems o = old) {o' : Ω} (hne : o' ≠ o) (he : elems o' = some e) :
    e.contents m' = e.contents m := by
  cases hp : e.bytes with
  | none => simp [ByteBufferStorage.contents, hp]
  | some p =>
      have hpointer : pointer (elems o') = some p := by rw [he]; exact hp
      obtain ⟨cells, hcells⟩ := h.live hpointer
      have hold : pointer old ≠ some p := fun heq => hne (h.unshared hpointer (by rw [ho]; exact heq))
      have hnew : pointer new ≠ some p := by
        intro heq
        rcases hr.taken heq with h₁ | h₁
        · exact hold h₁
        · rw [hcells] at h₁
          exact absurd h₁ (by simp)
      simp only [ByteBufferStorage.contents, hp, Option.bind_some]
      exact hr.frame hold hnew

/-! ## The hooks -/

/-- Nothing changed but what the log and the counters say. -/
theorem replaces_same {new : Option ByteBufferStorage} (hregions : m'.regions = m.regions)
    (hnext : m'.next = m.next)
    (hblock : ∀ {e p}, new = some e → e.bytes = some p →
      ∃ cells, m.regions p = some cells ∧ cells.length = e.capacity.toNat ∧ 0 < cells.length)
    (hnull : ∀ {e}, new = some e → e.bytes = none → e.capacity = 0)
    (hlog : ∃ calls, m'.log = m.log ++ calls ∧ ∀ live, Agrees live m →
      ∃ live', replay live calls = some live' ∧ Agrees live' m) :
    Replaces m m' new new where
  block := fun he hp => by rw [hregions]; exact hblock he hp
  null := hnull
  taken := fun hp => Or.inl hp
  frame := fun _ _ => by rw [hregions]
  gone := fun hp hne => absurd hp hne
  fresh := fun hf p hp => by rw [hregions]; exact hf (hnext ▸ hp)
  log := by
    obtain ⟨calls, hcalls, hreplay⟩ := hlog
    refine ⟨calls, hcalls, fun live hlive => ?_⟩
    obtain ⟨live', hlive', hagrees⟩ := hreplay live hlive
    exact ⟨live', hlive', fun p => by rw [hregions]; exact hagrees p⟩

omit [DecidableEq Ω] in
theorem Owned.replaces_same (h : Owned m elems) (ho : elems o = some e)
    (hregions : m'.regions = m.regions) (hnext : m'.next = m.next)
    (hlog : ∃ calls, m'.log = m.log ++ calls ∧ ∀ live, Agrees live m →
      ∃ live', replay live calls = some live' ∧ Agrees live' m) :
    Replaces m m' (some e) (some e) :=
  NPFoundation.replaces_same hregions hnext
    (fun he hp => by obtain rfl := Option.some.inj he; exact h.block ho hp)
    (fun he hp => by obtain rfl := Option.some.inj he; exact h.null ho hp) hlog

/-- A request the allocator turns down. -/
theorem replay_refused {len : Size} (hlen : len ≠ 0) :
    ∀ live, Agrees live m →
      ∃ live', replay live [.allocate len none] = some live' ∧ Agrees live' m := by
  intro live hlive
  exact ⟨live, by rw [replay, run_cons, AllocatorCall.replay, if_pos hlen]; rfl, hlive⟩

theorem toNat_pos_of_ne_zero {len : Size} (hlen : len ≠ 0) : 0 < len.toNat := by
  have hne : len.toNat ≠ 0 := fun h => hlen (BitVec.eq_of_toNat_eq h)
  omega

/-- A storage without a block gets one. -/
theorem allocate_replaces {old : Option ByteBufferStorage} {len : Size} (hold : pointer old = none)
    (hlen : len ≠ 0) (ha : a.allocates m.requests = true)
    (hfresh : ∀ {p}, m.next ≤ p → m.regions p = none) :
    Replaces m (m.allocate a len).1 old (some ⟨some m.next, len⟩) := by
  have hpos := toNat_pos_of_ne_zero hlen
  have heq : (m.allocate a len).1 = { m with
      regions := Function.update m.regions m.next (some (List.replicate len.toNat none))
      next := m.next + 1
      requests := m.requests + 1
      log := m.log ++ [.allocate len (some m.next)] } := by
    rw [Memory.allocate, if_pos ha]
  have hpointer : pointer (some ⟨some m.next, len⟩) = some m.next := rfl
  rw [heq]
  refine ⟨?_, ?_, ?_, ?_, ?_, ?_, ?_⟩
  · intro e p he hp
    obtain rfl := Option.some.inj he
    obtain rfl : m.next = p := Option.some.inj hp
    exact ⟨_, Function.update_self _ _ _, by simp, by simpa using hpos⟩
  · intro e he hp
    obtain rfl := Option.some.inj he
    exact absurd hp (by simp)
  · intro p hp
    obtain rfl : m.next = p := Option.some.inj hp
    exact Or.inr (hfresh (Nat.le_refl _))
  · intro p _ hne
    exact Function.update_of_ne (fun h => hne (hpointer.trans (congrArg some h.symm))) _ _
  · intro p hp
    rw [hold] at hp
    exact absurd hp (by simp)
  · intro _ p hp
    dsimp only at hp ⊢
    rw [Function.update_of_ne (Nat.ne_of_gt hp)]
    exact hfresh (Nat.le_of_succ_le hp)
  · refine ⟨_, rfl, fun live hlive => ?_⟩
    have hnone := hlive.eq_none (hfresh (Nat.le_refl m.next))
    refine ⟨Function.update live m.next (some len),
      by rw [replay, run_cons, AllocatorCall.replay, if_pos ⟨hlen, hnone⟩]; rfl, fun p => ?_⟩
    rcases eq_or_ne p m.next with rfl | hne
    · simp
    · simpa [Function.update_of_ne hne] using hlive p

omit [DecidableEq Ω] in
/-- A storage goes, and its block with it. -/
theorem destruct_replaces (h : Owned m elems) (he : elems o = some e) :
    Replaces m (e.destruct m) (some e) none := by
  cases hp : e.bytes with
  | none =>
      have heq : e.destruct m = m := by rw [ByteBufferStorage.destruct, hp]
      rw [heq]
      refine ⟨by simp, by simp, by simp [pointer], fun _ _ => rfl, ?_, fun hf => hf, [], by simp,
        fun live hlive => ⟨live, rfl, hlive⟩⟩
      intro p' hp'
      rw [pointer, Option.bind_some, hp] at hp'
      exact absurd hp' (by simp)
  | some p =>
      obtain ⟨cells, hcells, hlen, -⟩ := h.block he hp
      have heq : e.destruct m = m.deallocate p e.capacity := by rw [ByteBufferStorage.destruct, hp]
      have hpointer : pointer (some e) = some p := hp
      rw [heq]
      refine ⟨by simp, by simp, by simp [pointer], ?_, ?_, ?_, ?_⟩
      · intro p' hne _
        exact Function.update_of_ne (fun heq => hne (by rw [heq]; exact hpointer)) _ _
      · intro p' hp' _
        obtain rfl : p = p' := Option.some.inj (hpointer.symm.trans hp')
        exact Function.update_self _ _ _
      · intro hf p' hp'
        by_cases heq' : p' = p
        · subst heq'
          exact Function.update_self _ _ _
        · exact (Function.update_of_ne heq' _ _).trans (hf hp')
      · refine ⟨_, rfl, fun live hlive => ?_⟩
        have hlive' : live p = some e.capacity := by
          have hmap := hlive p
          rw [hcells] at hmap
          obtain ⟨len, hlen', heq'⟩ := Option.map_eq_some_iff.mp hmap
          rw [hlen', BitVec.eq_of_toNat_eq (heq'.trans hlen)]
        refine ⟨Function.update live p none,
          by simp [replay, run, AllocatorCall.replay, hlive'], fun p' => ?_⟩
        rcases eq_or_ne p' p with rfl | hne
        · simp [Memory.deallocate]
        · simpa [Memory.deallocate, Function.update_of_ne hne] using hlive p'

theorem length_resize (cells : Region) (len : Size) :
    (Memory.resize cells len).length = len.toNat := by
  simp only [Memory.resize, List.length_append, List.length_take, List.length_replicate]
  omega

/-- A block is made longer where it is. -/
theorem inPlace_replaces {p : Address} (hp : e.bytes = some p) {cells : Region}
    (hcells : m.regions p = some cells) {len : Size} (hlen : len ≠ 0)
    (hregions : m'.regions = Function.update m.regions p (some (Memory.resize cells len)))
    (hnext : m'.next = m.next) (hlog : m'.log = m.log ++ [.reallocate p len (some p)]) :
    Replaces m m' (some e) (some ⟨some p, len⟩) := by
  have hpointer : pointer (some e) = some p := hp
  refine ⟨?_, ?_, fun hq => Or.inl (hpointer.trans hq), ?_, ?_, ?_, ?_⟩
  · intro e' p' he' hp'
    obtain rfl := Option.some.inj he'
    obtain rfl : p = p' := Option.some.inj hp'
    exact ⟨Memory.resize cells len, by rw [hregions, Function.update_self], length_resize cells len,
      by rw [length_resize]; exact toNat_pos_of_ne_zero hlen⟩
  · intro e' he' hp'
    obtain rfl := Option.some.inj he'
    exact absurd hp' (by simp)
  · intro p' hne _
    rw [hregions]
    exact Function.update_of_ne (fun heq => hne (by rw [heq]; exact hpointer)) _ _
  · intro p' h₁ h₂
    exact absurd (hpointer.symm.trans h₁) h₂
  · intro hf p' hp'
    have hne : p' ≠ p := by
      intro heq
      rw [hnext, heq] at hp'
      rw [hf hp'] at hcells
      exact absurd hcells (by simp)
    rw [hregions, Function.update_of_ne hne]
    exact hf (hnext ▸ hp')
  · refine ⟨_, hlog, fun live hagrees =>
      ⟨Function.update (Function.update live p none) p (some len), ?_, fun p' => ?_⟩⟩
    · have hlive : (live p).isSome := by rw [hagrees.isSome, hcells]; rfl
      rw [replay, run_cons, AllocatorCall.replay, if_pos ⟨hlen, hlive, Or.inl rfl⟩]
      rfl
    · rw [hregions]
      rcases eq_or_ne p' p with rfl | hne
      · simp [length_resize]
      · simpa [Function.update_of_ne hne] using hagrees p'

/-- A block is made longer and moves; the old one is given back. -/
theorem moves_replaces {p : Address} (hp : e.bytes = some p) {cells : Region}
    (hcells : m.regions p = some cells) {len : Size} (hlen : len ≠ 0)
    (hfresh : ∀ {p}, m.next ≤ p → m.regions p = none)
    (hregions : m'.regions = Function.update (Function.update m.regions p none) m.next
      (some (Memory.resize cells len)))
    (hnext : m'.next = m.next + 1) (hlog : m'.log = m.log ++ [.reallocate p len (some m.next)]) :
    Replaces m m' (some e) (some ⟨some m.next, len⟩) := by
  have hpointer : pointer (some e) = some p := hp
  have hne : p ≠ m.next := by
    intro heq
    rw [heq, hfresh (Nat.le_refl _)] at hcells
    exact absurd hcells (by simp)
  refine ⟨?_, ?_, ?_, ?_, ?_, ?_, ?_⟩
  · intro e' p' he' hp'
    obtain rfl := Option.some.inj he'
    obtain rfl : m.next = p' := Option.some.inj hp'
    exact ⟨Memory.resize cells len, by rw [hregions, Function.update_self], length_resize cells len,
      by rw [length_resize]; exact toNat_pos_of_ne_zero hlen⟩
  · intro e' he' hp'
    obtain rfl := Option.some.inj he'
    exact absurd hp' (by simp)
  · intro q hq
    obtain rfl : m.next = q := Option.some.inj hq
    exact Or.inr (hfresh (Nat.le_refl _))
  · intro p' h₁ h₂
    rw [hregions, Function.update_of_ne (fun heq => h₂ (by rw [heq]; rfl)),
      Function.update_of_ne (fun heq => h₁ (by rw [heq]; exact hpointer))]
  · intro p' hp' _
    obtain rfl : p = p' := Option.some.inj (hpointer.symm.trans hp')
    rw [hregions, Function.update_of_ne hne, Function.update_self]
  · intro hf p' hp'
    rw [hnext] at hp'
    rw [hregions, Function.update_of_ne (Nat.ne_of_gt hp')]
    by_cases heq : p' = p
    · rw [heq, Function.update_self]
    · exact (Function.update_of_ne heq _ _).trans (hf (Nat.le_of_succ_le hp'))
  · refine ⟨_, hlog, fun live hagrees =>
      ⟨Function.update (Function.update live p none) m.next (some len), ?_, fun p' => ?_⟩⟩
    · have hlive : (live p).isSome := by rw [hagrees.isSome, hcells]; rfl
      have hnone := hagrees.eq_none (hfresh (Nat.le_refl m.next))
      rw [replay, run_cons, AllocatorCall.replay, if_pos ⟨hlen, hlive, Or.inr hnone⟩]
      rfl
    · rw [hregions]
      by_cases hq : p' = m.next
      · subst hq
        simp [length_resize]
      · by_cases hpp : p' = p
        · subst hpp
          simp [Function.update_of_ne hq]
        · simpa [Function.update_of_ne hq, Function.update_of_ne hpp] using hagrees p'

omit [DecidableEq Ω] in
/-- `reallocate` of the block of a storage: it is turned down and nothing changes, or the
storage gets a block with the same cells and more room. -/
theorem reallocate_spec (h : Owned m elems) (he : elems o = some e) {p : Address}
    (hp : e.bytes = some p) {cells : Region} (hcells : m.regions p = some cells) {len : Size}
    (hlen : len ≠ 0) :
    ∃ m' q, m.reallocate a p len = (m', q) ∧ m'.faults = m.faults
      ∧ m'.requests = m.requests + 1
      ∧ ((q = none ∧ a.reallocates m.requests = .fails ∧ Replaces m m' (some e) (some e)
          ∧ m'.regions = m.regions) ∨
        ∃ q', q = some q' ∧ a.reallocates m.requests ≠ .fails
          ∧ Replaces m m' (some e) (some ⟨some q', len⟩)
          ∧ m'.regions q' = some (Memory.resize cells len)) := by
  cases ha : a.reallocates m.requests with
  | fails =>
      have heq : m.reallocate a p len = ({ m with
          requests := m.requests + 1
          log := m.log ++ [.reallocate p len none] }, none) := by
        simp only [Memory.reallocate, hcells, ha]
      refine ⟨_, none, heq, rfl, rfl, Or.inl ⟨rfl, rfl,
        h.replaces_same he rfl rfl ⟨_, rfl, fun live hagrees => ⟨live, ?_, hagrees⟩⟩, rfl⟩⟩
      have hlive : (live p).isSome := by rw [hagrees.isSome, hcells]; rfl
      rw [replay, run_cons, AllocatorCall.replay, if_pos ⟨hlen, hlive⟩]
      rfl
  | inPlace =>
      have heq : m.reallocate a p len = ({ m with
          regions := Function.update m.regions p (some (Memory.resize cells len))
          requests := m.requests + 1
          log := m.log ++ [.reallocate p len (some p)] }, some p) := by
        simp only [Memory.reallocate, hcells, ha]
      exact ⟨_, some p, heq, rfl, rfl, Or.inr ⟨p, rfl, by simp,
        inPlace_replaces hp hcells hlen rfl rfl rfl, Function.update_self _ _ _⟩⟩
  | moves =>
      have heq : m.reallocate a p len = ({ m with
          regions := Function.update (Function.update m.regions p none) m.next
            (some (Memory.resize cells len))
          next := m.next + 1
          requests := m.requests + 1
          log := m.log ++ [.reallocate p len (some m.next)] }, some m.next) := by
        simp only [Memory.reallocate, hcells, ha]
      exact ⟨_, some m.next, heq, rfl, rfl, Or.inr ⟨m.next, rfl, by simp,
        moves_replaces hp hcells hlen h.fresh rfl rfl rfl, Function.update_self _ _ _⟩⟩

omit [DecidableEq Ω] in
/-- The cells of a block are overwritten. -/
theorem Owned.overwrite (h : Owned m elems) (he : elems o = some e) {p : Address}
    (hp : e.bytes = some p) {cells cells' : Region} (hcells : m.regions p = some cells)
    (hlen : cells'.length = cells.length) :
    Replaces m { m with regions := Function.update m.regions p (some cells') } (some e) (some e) := by
  have hpointer : pointer (some e) = some p := hp
  refine ⟨?_, ?_, fun hp' => Or.inl hp', ?_, fun h₁ h₂ => absurd h₁ h₂, ?_, ?_⟩
  · intro e' p' he' hp'
    obtain rfl := Option.some.inj he'
    obtain rfl : p = p' := Option.some.inj (hp.symm.trans hp')
    obtain ⟨cells₀, hcells₀, hlen₀, hpos⟩ := h.block he hp
    obtain rfl : cells = cells₀ := Option.some.inj (hcells.symm.trans hcells₀)
    exact ⟨cells', Function.update_self _ _ _, hlen.trans hlen₀, hlen ▸ hpos⟩
  · intro e' he' hp'
    obtain rfl := Option.some.inj he'
    rw [hp] at hp'
    exact absurd hp' (by simp)
  · intro p' hne _
    exact Function.update_of_ne (fun heq => hne (by rw [heq]; exact hpointer)) _ _
  · intro hf p' hp'
    have hne : p' ≠ p := by
      intro heq
      subst heq
      rw [hf hp'] at hcells
      exact absurd hcells (by simp)
    exact (Function.update_of_ne hne _ _).trans (hf hp')
  · refine ⟨[], by simp, fun live hlive => ⟨live, rfl, fun p' => ?_⟩⟩
    rcases eq_or_ne p' p with rfl | hne
    · have hmap := hlive p'
      rw [hcells] at hmap
      simp [hmap, hlen]
    · simpa [Function.update_of_ne hne] using hlive p'

end NPFoundation
