import Mathlib.Data.Set.Lattice
import Mathlib.Order.CompletePartialOrder
import Mathlib.Order.Interval.Set.Disjoint
import SepKernel.Cap
import SepKernel.Config

/-!
# What a capability stands for

The abstract side of `gen/cap.yml`: capabilities as values rather than words, the resources each
one owns, and derivation and parenthood as relations on them. A memory, time, channels or
supervisor capability is over a span `[first, stop)` of which `[first, free)` has been handed to
children and `[free, stop)` is still its own.
-/

namespace SepKernel

/-- A range of which the part up to `free` has been handed out. -/
structure Span where
  first : Nat
  free : Nat
  stop : Nat
deriving DecidableEq

namespace Span

/-- What is left to hand out. -/
def owned (r : Span) : Set Nat := Set.Ico r.free r.stop

/-- What it was made with. -/
def whole (r : Span) : Set Nat := Set.Ico r.first r.stop

/-- A range is not empty, and not more is handed out than there is. -/
def WF (r : Span) : Prop := r.first ≤ r.free ∧ r.free ≤ r.stop ∧ r.first < r.stop

/-- Everything up to `free` is handed out. -/
def carve (r : Span) (free : Nat) : Span := { r with free := free }

end Span

/-- A capability by its type, with the values of its fields. -/
inductive Capability where
  | memory (r : Span) (rwx : Word) (pmp : Nat)
  /-- The pages from `lo` to `hi`, both included. -/
  | pmp (lo hi : Nat) (rwx : Word)
  | time (hart : Nat) (r : Span)
  | channels (r : Span)
  | receiver (ch : Nat) (grant : Word)
  | sender (ch : Nat) (grant : Word)
  | server (ch : Nat) (grant : Word)
  | client (ch : Nat) (grant : Word)
  | supervisor (r : Span)
  /-- The empty capability, and words with an unknown tag. -/
  | other
deriving DecidableEq

/-- What is owned exclusively: a page, a quantum of a hart, a channel, a process. -/
inductive Resource where
  | page (n : Nat)
  | quantum (hart n : Nat)
  | channel (n : Nat)
  | process (n : Nat)
deriving DecidableEq

/-- `c` has no right that `p` lacks, as the generated code tests it. -/
def RwxSub (c p : Word) : Prop := c &&& p = c

theorem RwxSub.refl (a : Word) : RwxSub a a := BitVec.and_self

/-- Permissions only shrink along derivations. -/
theorem RwxSub.trans {a b c : Word} (h : RwxSub a b) (h' : RwxSub b c) : RwxSub a c := by
  unfold RwxSub at *
  rw [← h, BitVec.and_assoc, h']

namespace Capability

/-- The active range. -/
def owned : Capability → Set Resource
  | .memory r _ _ => Resource.page '' r.owned
  | .time h r => Resource.quantum h '' r.owned
  | .channels r => Resource.channel '' r.owned
  | .receiver ch _ => {.channel ch}
  | .server ch _ => {.channel ch}
  | .supervisor r => Resource.process '' r.owned
  | _ => ∅

/-- Everything the capability or a capability below it may ever own. -/
def extent : Capability → Set Resource
  | .memory r _ _ => Resource.page '' r.whole
  | .time h r => Resource.quantum h '' r.whole
  | .channels r => Resource.channel '' r.whole
  | .receiver ch _ => {.channel ch}
  | .server ch _ => {.channel ch}
  | .supervisor r => Resource.process '' r.whole
  | _ => ∅

/-- What the capability refers to, for telling whose descendant it is. A frame is told apart by
    its first page. -/
def mark : Capability → Set Resource
  | .memory r _ _ => Resource.page '' r.whole
  | .pmp lo _ _ => {.page lo}
  | .time h r => Resource.quantum h '' r.whole
  | .channels r => Resource.channel '' r.whole
  | .receiver ch _ => {.channel ch}
  | .sender ch _ => {.channel ch}
  | .server ch _ => {.channel ch}
  | .client ch _ => {.channel ch}
  | .supervisor r => Resource.process '' r.whole
  | .other => ∅

/-- Everything the words of the capability refer to. -/
def footprint : Capability → Set Resource
  | .pmp lo hi _ => Resource.page '' Set.Icc lo hi
  | c => c.mark

/-- `cap_can_derive`. -/
inductive CanDerive : Capability → Capability → Prop where
  | memory {r c : Span} {w w' : Word} (hfirst : c.first = r.free) (hfree : c.free = c.first)
      (hlt : c.first < c.stop) (hstop : c.stop ≤ r.stop) (hrwx : RwxSub w' w) :
      CanDerive (.memory r w 0) (.memory c w' 0)
  | pmp {r : Span} {w w' : Word} {m lo hi : Nat} (hlo : r.free ≤ lo) (hlt : lo < hi)
      (hhi : hi ≤ r.stop) (hrwx : RwxSub w' w) : CanDerive (.memory r w m) (.pmp lo hi w')
  | time {h : Nat} {r c : Span} (hfirst : c.first = r.free) (hfree : c.free = c.first)
      (hlt : c.first < c.stop) (hstop : c.stop ≤ r.stop) : CanDerive (.time h r) (.time h c)
  | channels {r c : Span} (hfirst : c.first = r.free) (hfree : c.free = c.first)
      (hlt : c.first < c.stop) (hstop : c.stop ≤ r.stop) : CanDerive (.channels r) (.channels c)
  | receiver {r : Span} {ch : Nat} {g : Word} (hch : ch = r.free) (hlt : ch < r.stop)
      (hg : g = 0 ∨ g = 1) : CanDerive (.channels r) (.receiver ch g)
  | server {r : Span} {ch : Nat} {g : Word} (hch : ch = r.free) (hlt : ch < r.stop)
      (hg : g = 0 ∨ g = 1) : CanDerive (.channels r) (.server ch g)
  | sender {ch : Nat} {g : Word} : CanDerive (.receiver ch g) (.sender ch g)
  | client {ch : Nat} {g : Word} : CanDerive (.server ch g) (.client ch g)
  | supervisor {r c : Span} (hfirst : r.free ≤ c.first) (hfree : c.free = c.first)
      (hlt : c.first < c.stop) (hstop : c.stop ≤ r.stop) :
      CanDerive (.supervisor r) (.supervisor c)

/-- `cap_is_child`. -/
inductive IsChild : Capability → Capability → Prop where
  | memory {r c : Span} {w w' : Word} {m m' : Nat} (hfirst : r.first ≤ c.first)
      (hstop : c.stop ≤ r.free) (hrwx : RwxSub w' w) : IsChild (.memory r w m) (.memory c w' m')
  | pmp {r : Span} {w w' : Word} {lo hi : Nat} (hlo : r.free ≤ lo) (hhi : hi ≤ r.stop)
      (hrwx : RwxSub w' w) : IsChild (.memory r w 1) (.pmp lo hi w')
  | time {h : Nat} {r c : Span} (hfirst : r.first ≤ c.first) (hstop : c.stop ≤ r.free) :
      IsChild (.time h r) (.time h c)
  | channels {r c : Span} (hfirst : r.first ≤ c.first) (hstop : c.stop ≤ r.free) :
      IsChild (.channels r) (.channels c)
  | receiver {r : Span} {ch : Nat} {g : Word} (hfirst : r.first ≤ ch) (hlt : ch < r.free) :
      IsChild (.channels r) (.receiver ch g)
  | sender {r : Span} {ch : Nat} {g : Word} (hfirst : r.first ≤ ch) (hlt : ch < r.free) :
      IsChild (.channels r) (.sender ch g)
  | server {r : Span} {ch : Nat} {g : Word} (hfirst : r.first ≤ ch) (hlt : ch < r.free) :
      IsChild (.channels r) (.server ch g)
  | client {r : Span} {ch : Nat} {g : Word} (hfirst : r.first ≤ ch) (hlt : ch < r.free) :
      IsChild (.channels r) (.client ch g)
  | receiverSender {ch : Nat} {g g' : Word} : IsChild (.receiver ch g) (.sender ch g')
  | serverClient {ch : Nat} {g g' : Word} : IsChild (.server ch g) (.client ch g')
  | supervisor {r c : Span} (hfirst : r.first ≤ c.first) (hstop : c.stop ≤ r.free) :
      IsChild (.supervisor r) (.supervisor c)

/-- `derive_update_cap`. -/
def afterDerive : Capability → Capability → Capability
  | .memory r w m, .memory c _ _ => .memory (r.carve c.stop) w m
  | .memory r w _, _ => .memory r w 1
  | .time h r, .time _ c => .time h (r.carve c.stop)
  | .channels r, .channels c => .channels (r.carve c.stop)
  | .channels r, .receiver ch _ => .channels (r.carve (ch + 1))
  | .channels r, .server ch _ => .channels (r.carve (ch + 1))
  | .supervisor r, .supervisor c => .supervisor (r.carve c.stop)
  | p, _ => p

/-- What `revoke_update_cap` is there to do: everything handed out comes back. -/
def reset : Capability → Capability
  | .memory r w _ => .memory (r.carve r.first) w 0
  | .time h r => .time h (r.carve r.first)
  | .channels r => .channels (r.carve r.first)
  | .supervisor r => .supervisor (r.carve r.first)
  | c => c

/-- The spans are in order, and a capability for memory knows whether it has frames. -/
def WF : Capability → Prop
  | .memory r _ m => r.WF ∧ (m = 0 ∨ m = 1)
  | .pmp lo hi _ => lo < hi
  | .time _ r => r.WF
  | .channels r => r.WF
  | .supervisor r => r.WF
  | .other => False
  | _ => True

/-- The capability stays within the tables of the kernel. -/
def Within (cfg : Config) : Capability → Prop
  | .time h r => cfg.minHartid ≤ h ∧ h ≤ cfg.maxHartid ∧ r.stop ≤ cfg.nQuantum
  | .channels r => r.stop ≤ cfg.nChannels
  | .receiver ch _ => ch < cfg.nChannels
  | .sender ch _ => ch < cfg.nChannels
  | .server ch _ => ch < cfg.nChannels
  | .client ch _ => ch < cfg.nChannels
  | .supervisor r => r.stop ≤ cfg.nProc
  | _ => True

/-- What holds of every capability in use. -/
def Valid (cfg : Config) (c : Capability) : Prop := c.WF ∧ c.Within cfg

/-- What was handed out is within what the capability was for. -/
theorem mark_subset_footprint {c : Capability} (h : c.WF) : c.mark ⊆ c.footprint := by
  cases c with
  | pmp lo hi w => exact Set.singleton_subset_iff.mpr ⟨lo, ⟨le_rfl, le_of_lt h⟩, rfl⟩
  | _ => exact subset_rfl

/-- And so is what is left. -/
theorem owned_subset_footprint {c : Capability} (h : c.WF) : c.owned ⊆ c.footprint := by
  have hspan : ∀ {f : Nat → Resource} {r : Span}, r.WF → f '' r.owned ⊆ f '' r.whole := fun hr =>
    Set.image_mono (Set.Ico_subset_Ico_left hr.1)
  cases c with
  | memory => exact hspan h.1
  | time => exact hspan h
  | channels => exact hspan h
  | supervisor => exact hspan h
  | receiver => exact subset_rfl
  | server => exact subset_rfl
  | _ => exact Set.empty_subset _

/-! ## Derivation splits what is owned -/

theorem mem_owned_span {f : Nat → Resource} {r c : Span} {x : Nat} (hx : x ∈ c.owned)
    (hfree : r.free ≤ c.free) (hstop : c.stop ≤ r.stop) : f x ∈ f '' r.owned :=
  ⟨x, ⟨hfree.trans hx.1, lt_of_lt_of_le hx.2 hstop⟩, rfl⟩

/-- A smaller rest of a smaller range. -/
theorem span_owned_subset (f : Nat → Resource) {r c : Span} (hfree : r.free ≤ c.free)
    (hstop : c.stop ≤ r.stop) : f '' c.owned ⊆ f '' r.owned := by
  rintro _ ⟨x, hx, rfl⟩
  exact mem_owned_span hx hfree hstop

/-- What is handed out and what is left have nothing in common. -/
theorem carve_disjoint {f : Nat → Resource} (hf : Function.Injective f) {r c : Span} :
    Disjoint (f '' (r.carve c.stop).owned) (f '' c.owned) := by
  rw [Set.disjoint_left]
  rintro _ ⟨x, hx, rfl⟩ ⟨y, hy, hxy⟩
  obtain rfl := hf hxy
  exact absurd hx.1 (not_le.mpr hy.2)

theorem page_injective : Function.Injective Resource.page := fun _ _ h => by cases h; rfl
theorem quantum_injective (h : Nat) : Function.Injective (Resource.quantum h) :=
  fun _ _ e => by cases e; rfl
theorem channel_injective : Function.Injective Resource.channel := fun _ _ h => by cases h; rfl
theorem process_injective : Function.Injective Resource.process := fun _ _ h => by cases h; rfl

variable {p c n x : Capability}

/-- The child owns a part of what the parent owned. -/
theorem CanDerive.child_owned (h : CanDerive p c) : c.owned ⊆ p.owned := by
  cases h with
  | memory hfirst hfree hlt hstop =>
    exact span_owned_subset _ (by rw [hfree, hfirst]) hstop
  | pmp => exact Set.empty_subset _
  | time hfirst hfree hlt hstop => exact span_owned_subset _ (by rw [hfree, hfirst]) hstop
  | channels hfirst hfree hlt hstop => exact span_owned_subset _ (by rw [hfree, hfirst]) hstop
  | receiver hch hlt => exact Set.singleton_subset_iff.mpr ⟨_, ⟨hch.ge, hlt⟩, rfl⟩
  | server hch hlt => exact Set.singleton_subset_iff.mpr ⟨_, ⟨hch.ge, hlt⟩, rfl⟩
  | sender => exact Set.empty_subset _
  | client => exact Set.empty_subset _
  | supervisor hfirst hfree hlt hstop =>
    exact span_owned_subset _ (by rw [hfree]; exact hfirst) hstop

/-- The parent keeps a part of what it owned. -/
theorem CanDerive.parent_owned (h : CanDerive p c) : (p.afterDerive c).owned ⊆ p.owned := by
  have hcarve : ∀ (f : Nat → Resource) {r : Span} {b : Nat}, r.free ≤ b →
      f '' (r.carve b).owned ⊆ f '' r.owned := by
    rintro f r b hb _ ⟨x, hx, rfl⟩
    exact ⟨x, ⟨hb.trans hx.1, hx.2⟩, rfl⟩
  cases h with
  | memory hfirst hfree hlt hstop => exact hcarve _ (by omega)
  | pmp => exact subset_rfl
  | time hfirst hfree hlt hstop => exact hcarve _ (by omega)
  | channels hfirst hfree hlt hstop => exact hcarve _ (by omega)
  | receiver hch hlt => exact hcarve _ (by omega)
  | server hch hlt => exact hcarve _ (by omega)
  | sender => exact subset_rfl
  | client => exact subset_rfl
  | supervisor hfirst hfree hlt hstop => exact hcarve _ (by omega)

/-- The two parts are disjoint. -/
theorem CanDerive.disjoint (h : CanDerive p c) : Disjoint (p.afterDerive c).owned c.owned := by
  have hch : ∀ {r : Span} {ch : Nat},
      Disjoint (Resource.channel '' (r.carve (ch + 1)).owned) {Resource.channel ch} := by
    intro r ch
    rw [Set.disjoint_singleton_right]
    rintro ⟨x, hx, hxc⟩
    obtain rfl := channel_injective hxc
    exact absurd hx.1 (Nat.not_succ_le_self _)
  cases h with
  | memory => exact carve_disjoint page_injective
  | pmp => exact Set.disjoint_empty _
  | time => exact carve_disjoint (quantum_injective _)
  | channels => exact carve_disjoint channel_injective
  | receiver => exact hch
  | server => exact hch
  | sender => exact Set.disjoint_empty _
  | client => exact Set.disjoint_empty _
  | supervisor => exact carve_disjoint process_injective

/-! ## Derivation keeps capabilities valid -/

variable {cfg : Config}

/-- A derivation from a valid capability makes a valid one. -/
theorem CanDerive.valid_child (h : CanDerive p c) (hp : p.Valid cfg) : c.Valid cfg := by
  obtain ⟨hwf, hin⟩ := hp
  have hspan : ∀ {c : Span}, c.free = c.first → c.first < c.stop → c.WF :=
    fun hfree hlt => ⟨hfree.ge, hfree.le.trans hlt.le, hlt⟩
  cases h with
  | memory hfirst hfree hlt => exact ⟨⟨hspan hfree hlt, Or.inl rfl⟩, trivial⟩
  | pmp hlo hlt => exact ⟨hlt, trivial⟩
  | time hfirst hfree hlt hstop =>
    exact ⟨hspan hfree hlt, hin.1, hin.2.1, hstop.trans hin.2.2⟩
  | channels hfirst hfree hlt hstop => exact ⟨hspan hfree hlt, hstop.trans hin⟩
  | receiver hch hlt => exact ⟨trivial, hlt.trans_le hin⟩
  | server hch hlt => exact ⟨trivial, hlt.trans_le hin⟩
  | sender => exact ⟨trivial, hin⟩
  | client => exact ⟨trivial, hin⟩
  | supervisor hfirst hfree hlt hstop => exact ⟨hspan hfree hlt, hstop.trans hin⟩

/-- And leaves its source valid. -/
theorem CanDerive.valid_parent (h : CanDerive p c) (hp : p.Valid cfg) :
    (p.afterDerive c).Valid cfg := by
  obtain ⟨hwf, hin⟩ := hp
  have hcarve : ∀ {r : Span} {b : Nat}, r.WF → r.free ≤ b → b ≤ r.stop → (r.carve b).WF :=
    fun hr hb hb' => ⟨hr.1.trans hb, hb', hr.2.2⟩
  cases h with
  | memory hfirst hfree hlt hstop => exact ⟨⟨hcarve hwf.1 (by omega) hstop, hwf.2⟩, hin⟩
  | pmp => exact ⟨⟨hwf.1, Or.inr rfl⟩, hin⟩
  | time hfirst hfree hlt hstop => exact ⟨hcarve hwf (by omega) hstop, hin⟩
  | channels hfirst hfree hlt hstop => exact ⟨hcarve hwf (by omega) hstop, hin⟩
  | receiver hch hlt => exact ⟨hcarve hwf (by omega) hlt, hin⟩
  | server hch hlt => exact ⟨hcarve hwf (by omega) hlt, hin⟩
  | sender => exact ⟨hwf, hin⟩
  | client => exact ⟨hwf, hin⟩
  | supervisor hfirst hfree hlt hstop => exact ⟨hcarve hwf (by omega) hstop, hin⟩

end Capability
end SepKernel
