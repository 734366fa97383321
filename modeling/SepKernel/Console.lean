import SepKernel.Printing
import SepKernel.Sections

/-!
# `src/kprint.c`

`kprintf` formats into a buffer of its own, and `puts` sends the buffer to the UART byte by byte,
behind a lock. So the console has whole messages, in the order in which the harts took their
tickets, whichever way the harts take turns.
-/

namespace SepKernel

open Snprintf Serial
open Transition (Reachable exec steps_getD_exec)

/-! ## The functions -/

/-- The store to `uart[0]`, on the bytes that have gone there. -/
def uartPutchar (uart : List Byte) (c : Byte) : List Byte := uart ++ [c]

/-- The bytes from `s` on, and `i`. -/
structure PutsVars where
  s : List Byte
  i : Nat

/-- The loop of `puts`, which returns `i`. -/
def puts : Section (List Byte) (List Byte) PutsVars Unit where
  begins s := ⟨s, 0⟩
  next g :=
    match g.s[g.i]? with
    | some c => if c ≠ 0 then some fun _ uart => (⟨g.s, g.i + 1⟩, uartPutchar uart c) else none
    | none => none

/-- The bytes of `buf` when `kprintf` calls `puts`. -/
def kprintf (format : List Byte) (args : List Arg) (buf : Nat → Byte) :
    Except Fault (List Byte) := do
  let (buf, _) ← vsnprintf 128 format args buf
  return (List.range 128).map buf

/-- A call of `kprintf` with a format that keeps to the scratch arrays, and what `buf` holds
    before. -/
structure Message where
  items : List Item
  safe : SafeFrom 127 items
  buf : Nat → Byte

/-- What `puts` is given, to the end of the buffer. -/
def Message.bytes (m : Message) : List Byte :=
  match kprintf (text m.items) (arguments m.items) m.buf with
  | .ok s => s
  | .error _ => []

/-- `kprintf`; its buffer is on the stack of the hart, so that only `puts` makes accesses to what
    others have. -/
def kprintfPuts : Section (List Byte) Message PutsVars Unit where
  begins m := puts.begins m.bytes
  next := puts.next

/-! ## One message -/

/-- The bytes before the first NUL. -/
def cString : List Byte → List Byte
  | [] => []
  | b :: s => if b ≠ 0 then b :: cString s else []

/-- The first bytes of what the format asks for, as far as there is room for them and no NUL is
    among them. -/
def Message.shown (m : Message) : List Byte := cString ((m.items.flatMap Item.bytes).take 127)

/-- A string ends at its first zero. -/
theorem cString_append_nul (s r : List Byte) : cString (s ++ 0 :: r) = cString s := by
  induction s with
  | nil => rfl
  | cons b s ih => simp only [List.cons_append, cString, ih]

theorem cString_append {s : List Byte} (h : ∀ b ∈ s, b ≠ 0) (r : List Byte) :
    cString (s ++ r) = s ++ cString r := by
  induction s with
  | nil => rfl
  | cons b s ih =>
    obtain ⟨hb, hs⟩ := List.forall_mem_cons.mp h
    rw [List.cons_append, cString, if_pos hb, ih hs, List.cons_append]

/-- `buf` begins with the bytes of the format and a NUL. -/
theorem exists_kprintf (m : Message) : ∃ r, kprintf (text m.items) (arguments m.items) m.buf =
    .ok ((m.items.flatMap Item.bytes).take 127 ++ 0 :: r) := by
  have hrun := vsnprintf_eq (by decide : 1 ≤ 128) m.items m.buf
  rw [if_pos m.safe] at hrun
  generalize hbytes : m.items.flatMap Item.bytes = bytes
  have hpos : (printed 128 m.items m.buf).pos = (bytes.take 127).length := by
    rw [List.length_take, ← hbytes]
    simp only [printed, Out.write, Nat.zero_add]
    omega
  have hle : (bytes.take 127).length ≤ 127 := by
    rw [List.length_take]
    omega
  generalize hmem : Function.update (printed 128 m.items m.buf).mem
    (printed 128 m.items m.buf).pos 0 = mem at hrun
  have hnul : mem (bytes.take 127).length = 0 := by
    rw [← hmem, ← hpos, Function.update_self]
  have hbefore : (List.range (bytes.take 127).length).map mem = bytes.take 127 := by
    refine List.ext_getElem (by simp) fun i hi hi' => ?_
    have hlt : i < bytes.length := by
      rw [List.length_take] at hi'
      omega
    have hne : i ≠ (printed 128 m.items m.buf).pos := by omega
    have hroom : i < 127 := by omega
    rw [List.getElem_map, List.getElem_range, List.getElem_take, ← hmem, Function.update_of_ne hne]
    simp only [printed, Out.write, hbytes]
    rw [if_pos ⟨hroom, Nat.zero_le _⟩, Nat.sub_zero, List.getD_eq_getElem _ _ hlt]
  have hsplit : (128 : Nat) = (bytes.take 127).length + (127 - (bytes.take 127).length + 1) := by
    omega
  refine ⟨((List.range (127 - (bytes.take 127).length)).map Nat.succ).map
    fun i => mem ((bytes.take 127).length + i), ?_⟩
  rw [kprintf, hrun]
  refine congrArg Except.ok ?_
  rw [hsplit, List.range_add, List.map_append, hbefore, List.range_succ_eq_map, List.map_cons,
    List.map_cons, Nat.add_zero, hnul, List.map_map]
  rfl

/-- What `puts` sends of the buffer is the text that was asked for. -/
theorem cString_bytes (m : Message) : cString m.bytes = m.shown := by
  obtain ⟨r, hr⟩ := exists_kprintf m
  rw [Message.bytes, hr, Message.shown]
  exact cString_append_nul _ r

/-! ## What `puts` sends -/

variable {m : Message} {uart uart' : List Byte} {g : PutsVars}

/-- The bytes before `i` have been sent, and none of them is the NUL. -/
theorem runs_puts (h : kprintfPuts.Runs m uart g uart') :
    g.s = m.bytes ∧ g.i ≤ g.s.length ∧ uart' = uart ++ g.s.take g.i ∧ ∀ b ∈ g.s.take g.i, b ≠ 0 := by
  refine h.invariant (I := fun g uart' => g.s = m.bytes ∧ g.i ≤ g.s.length ∧
    uart' = uart ++ g.s.take g.i ∧ ∀ b ∈ g.s.take g.i, b ≠ 0) (fun g uart' f o hI hf => ?_)
    ⟨rfl, Nat.zero_le _, (List.append_nil uart).symm, List.forall_mem_nil _⟩
  obtain ⟨hs, hle, rfl, hne⟩ := hI
  simp only [kprintfPuts, puts] at hf
  split at hf
  · next c hc =>
    split at hf
    · next hc0 =>
      obtain rfl := Option.some.inj hf
      obtain ⟨hlt, -⟩ := List.getElem?_eq_some_iff.mp hc
      have htake : g.s.take (g.i + 1) = g.s.take g.i ++ [c] := by
        rw [List.take_add_one, hc]
        rfl
      refine ⟨hs, hlt, ?_, ?_⟩
      · simp only [uartPutchar, htake, List.append_assoc]
      · simp only [htake]
        exact List.forall_mem_append.mpr ⟨hne, List.forall_mem_singleton.mpr hc0⟩
    · cases hf
  · cases hf

/-- What is sent and what is left make the text. -/
theorem shown_eq (hs : g.s = m.bytes) (hne : ∀ b ∈ g.s.take g.i, b ≠ 0) :
    m.shown = g.s.take g.i ++ cString (g.s.drop g.i) := by
  rw [← cString_append hne, List.take_append_drop, hs, cString_bytes]

/-- What has been sent is the beginning of the message. -/
theorem sent_of_runs (h : kprintfPuts.Runs m uart g uart') :
    ∃ part, uart' = uart ++ part ∧ part <+: m.shown := by
  obtain ⟨hs, -, rfl, hne⟩ := runs_puts h
  exact ⟨_, rfl, _, (shown_eq hs hne).symm⟩

/-- At the end it is the message, and `puts` returns its length. -/
theorem sent_of_does (h : kprintfPuts.Does m uart g uart') :
    uart' = uart ++ m.shown ∧ g.i = m.shown.length := by
  obtain ⟨hruns, hover⟩ := h
  obtain ⟨hs, hle, rfl, hne⟩ := runs_puts hruns
  have hend : cString (g.s.drop g.i) = [] := by
    simp only [kprintfPuts, puts] at hover
    split at hover
    · next c hc =>
      split at hover
      · cases hover
      · next hc0 =>
        obtain ⟨hlt, rfl⟩ := List.getElem?_eq_some_iff.mp hc
        rw [List.drop_eq_getElem_cons hlt, cString, if_neg hc0]
    · next hc =>
      rw [List.drop_eq_nil_of_le (List.getElem?_eq_none_iff.mp hc)]
      rfl
  rw [shown_eq hs hne, hend, List.append_nil]
  exact ⟨rfl, (List.length_take_of_le hle).symm⟩

/-! ## The console -/

/-- The console has the messages of the calls that are over, in the order of the fetch-and-adds, and
    after them the beginning of the one that is being sent. -/
structure Whole {ι : Type} (s : Guarded ι (List Byte) Message PutsVars) : Prop where
  sent : ∃ part, s.data = s.done.flatMap (fun x => x.2.1.shown) ++ part ∧
    ((∀ h m g, s.stage h ≠ .inside m g) → part = []) ∧
    ∀ h m g, s.stage h = .inside m g → part <+: m.shown
  returned : ∀ x ∈ s.done, x.2.2.i = x.2.1.shown.length
  order : s.done.map Prod.fst <+: s.lock.asked

variable {ι : Type} [DecidableEq ι] [Fintype ι]

/-- In every run of fewer than 2^32 harts that call `kprintf`, no message is torn: what has been
    sent is one message after the other, in the order of the tickets, and a part of the next. -/
theorem messages_whole (hcard : Fintype.card ι < 2 ^ 32) {s : Guarded ι (List Byte) Message PutsVars}
    (hr : Reachable (Guarded.Start []) (Guarded.Step kprintfPuts) s) : Whole s := by
  have hI := Guarded.serially hcard hr
  have hwhole : ∀ uart, kprintfPuts.DoesAll [] (s.done.map Prod.snd) uart →
      uart = s.done.flatMap (fun x => x.2.1.shown) ∧ ∀ x ∈ s.done, x.2.2.i = x.2.1.shown.length := by
    intro uart h
    have hsent := h.foldl (f := fun uart x => uart ++ x.1.shown)
      fun _ _ _ _ hdoes => (sent_of_does hdoes).1
    have hlength := h.forall_mem (P := fun m g => g.i = m.shown.length)
      fun _ _ _ _ hdoes => (sent_of_does hdoes).2
    constructor
    · rw [hsent, List.foldl_append_eq_append, List.nil_append, List.map_map]
      rfl
    · exact fun x hx => hlength x.2 (List.mem_map_of_mem hx)
  cases hI.progress with
  | free hnone hserial _ =>
    obtain ⟨hdata, hlength⟩ := hwhole _ hserial
    refine ⟨⟨[], by rw [hdata, List.append_nil], fun _ => rfl, fun h m g hs => ?_⟩, hlength,
      hI.asked hcard⟩
    exact absurd hs (hnone h m g)
  | busy h m g uart hs hserial hruns _ =>
    obtain ⟨rfl, hlength⟩ := hwhole _ hserial
    obtain ⟨part, hdata, hpart⟩ := sent_of_runs hruns
    refine ⟨⟨part, hdata, fun hnone => absurd hs (hnone h m g), fun h' m' g' hs' => ?_⟩, hlength,
      hI.asked hcard⟩
    obtain rfl := hI.unique hcard hs hs'
    cases hs.symm.trans hs'
    exact hpart

/-- `kprintf` of a format without directives. -/
def plainMessage (b c : Char) (hb : ascii b ≠ 0 ∧ ascii b ≠ ascii '%')
    (hc : ascii c ≠ 0 ∧ ascii c ≠ ascii '%') : Message where
  items := [.literal (ascii b) hb, .literal (ascii c) hc]
  safe := Or.inr ⟨trivial, Or.inr ⟨trivial, trivial⟩⟩
  buf _ := 0

/-- Two messages of two bytes each. -/
def messageAb : Message := plainMessage 'a' 'b' (by decide) (by decide)

/-- The other. -/
def messageCd : Message := plainMessage 'c' 'd' (by decide) (by decide)

/-- Two harts, the lock free and nothing sent. -/
def quietConsole : Guarded Bool (List Byte) Message PutsVars := ⟨initLock, [], fun _ => .idle, []⟩

/-- The second hart calls while the first sends, and has sent one byte when the first is done. -/
def twoMessages : List (Turn Bool Message Unit) :=
  .call false messageAb :: List.replicate 3 (.access false ()) ++
    .call true messageCd :: List.replicate 3 (.access true ()) ++
    List.replicate 4 (.access false ()) ++ List.replicate 2 (.access true ())

/-- The second message waits for the end of the first. -/
theorem messages_whole_twoMessages :
    let s := (exec (Guarded.step kprintfPuts) twoMessages quietConsole).getD quietConsole
    s.data = [ascii 'a', ascii 'b', ascii 'c'] ∧ s.done.map Prod.fst = [false] ∧ Whole s :=
  ⟨by decide +kernel, by decide +kernel, messages_whole (by rw [Fintype.card_bool]; decide)
    ⟨quietConsole, ⟨initLock_start, rfl, fun _ => rfl, rfl⟩, steps_getD_exec (fun _ _ _ h => h) _ _⟩⟩

end SepKernel
