import DvbIpiTools.Bim.Codec.Lax.RoundTrip

set_option autoImplicit false

/-! # The lax symbol tables stay in step

The codes of a table are the seven-bit numbers, each once, and no events have two entries, whatever was evicted. A reader that follows
the codes of a writer gets the writer's events and its table. -/

namespace DvbIpiTools.Bim.Lax

open BitList Codec Coder List Option

/-! ## Entries and codes -/

theorem Table.codes_update (t : Table) (ev : Events) : ((t.update ev).syms.map Sym.code).Perm (t.syms.map Sym.code) := by
  unfold Table.update
  split
  · exact .rfl
  · next h => exact map_code_cons h ev

theorem Table.nodup_update {t : Table} (h : (t.syms.map Sym.ev).Nodup) (ev : Events) :
    ((t.update ev).syms.map Sym.ev).Nodup := by
  unfold Table.update
  split
  · exact h
  rename_i s hs
  obtain ⟨hlt, hget⟩ := List.getElem?_eq_some_iff.1 hs
  refine nodup_cons.2 ⟨?_, h.sublist ((eraseIdx_sublist _ _).map _)⟩
  cases hfind : t.syms.findIdx? (·.ev = ev) with
  | none =>
    -- the oldest entry gives way to events that no entry has
    intro hmem
    obtain ⟨u, hu, hev⟩ := mem_map.1 hmem
    exact absurd hev (by simpa using findIdx?_eq_none_iff.1 hfind u (mem_of_mem_eraseIdx hu))
  | some i =>
    have hi : t.taken ev = i := by rw [Table.taken, hfind, getD_some]
    have hev : s.ev = ev := by
      have hp := (findIdx?_eq_some_iff_getElem.1 hfind).2.1
      simp only [hi] at hget
      simpa [hget] using hp
    have hcons : (s :: t.syms.eraseIdx (t.taken ev)).map Sym.ev |>.Nodup :=
      ((hget ▸ getElem_cons_eraseIdx_perm hlt).map Sym.ev).nodup_iff.2 h
    exact hev ▸ (nodup_cons.1 hcons).1

/-- What every update of a table keeps. -/
structure InOrder (t : Table) : Prop where
  codes : (t.syms.map Sym.code).Perm (range laxSyms)
  nodup : (t.syms.map Sym.ev).Nodup

theorem InOrder.update {t : Table} (h : InOrder t) (ev : Events) : InOrder (t.update ev) :=
  ⟨(t.codes_update ev).trans h.codes, Table.nodup_update h.nodup ev⟩

theorem inOrder_init (agg : Bool) : InOrder (Syms.init agg).tab where
  codes := by
    show (map Sym.code (map _ _)).Perm _
    rw [List.map_map]
    exact .of_eq (map_id _)
  nodup := by
    show (map Sym.ev (map _ _)).Nodup
    rw [List.map_map]
    exact nodup_range.map fun _ _ h => Events.one.inj h

theorem InOrder.event {sy : Syms} (h : InOrder sy.tab) (e : Nat) : InOrder (sy.event e).tab := by
  unfold Syms.event Syms.updateOne
  split
  · split
    · exact h.update _
    · exact (h.update _).update _
    · exact ((h.update _).update _).update _
  · exact h.update _

theorem InOrder.events {sy : Syms} (h : InOrder sy.tab) (evs : List Nat) : InOrder (evs.foldl Syms.event sy).tab := by
  induction evs generalizing sy with
  | nil => exact h
  | cons e evs ih => exact ih (h.event e)

/-! ## The reader -/

/-- One code on the wire, for a table: that of an entry, with its one to three events, or an escaped event. -/
inductive Message (sy : Syms) : List Nat → List Bool → Prop where
  | code {code : Nat} {sym : Sym} (h : sy.byCode code = some sym) : Message sy sym.ev.toList (ofNat 8 code)
  | escape {ev : Nat} (h : ev < 2 ^ 15) : Message sy [ev] (ofNat 16 (1 <<< 15 ||| ev))

/-- Codes one behind the other: the writer enters the events of each one in its table before it takes the next. -/
inductive Sent : Syms → List Nat → List Bool → Syms → Prop where
  | nil (sy : Syms) : Sent sy [] [] sy
  | cons {sy sy' : Syms} {evs evs' : List Nat} {bits bits' : List Bool} (h : Message sy evs bits)
      (rest : Sent (evs.foldl Syms.event sy) evs' bits' sy') : Sent sy (evs ++ evs') (bits ++ bits') sy'

/-- `n` calls of `lax_event`. -/
def laxTake : Nat → Reader → BitRd (List Nat × Reader)
  | 0, r => pure ([], r)
  | n + 1, r => do
    let (e, r) ← laxEvent r
    let (es, r) ← laxTake n r
    return (e :: es, r)

variable {sy sy' : Syms} {evs evs' : List Nat} {bits : List Bool} {r r' : Reader} {s s' : List Bool} {e n : Nat}

theorem Message.reads (h : Message sy evs bits) : ∃ ext tail, bits = [ext] ++ tail ∧ Reads (laxCode sy ext) tail evs := by
  cases h with
  | code h => exact ⟨false, reads_code h⟩
  | escape h => exact ⟨true, reads_escape sy h⟩

theorem Message.ne_nil (h : Message sy evs bits) : ∃ e fifo, evs = e :: fifo := by
  cases h with
  | @code code sym h => cases sym.ev <;> exact ⟨_, _, rfl⟩
  | escape h => exact ⟨_, _, rfl⟩

theorem laxTake_succ (h : laxEvent r s = some ((e, r'), s')) (n : Nat) :
    laxTake (n + 1) r s = (laxTake n r' s').map fun x => ((e :: x.1.1, x.1.2), x.2) := by
  show (laxEvent r >>= _) s = _
  rw [bits_bind h]
  show (laxTake n r' s').bind _ = _
  cases laxTake n r' s' <;> rfl

theorem laxTake_fifo (h : laxTake n { r with fifo := [] } s = some ((evs', r'), s')) :
    ∀ evs, laxTake (evs.length + n) { r with fifo := evs } s = some ((evs ++ evs', r'), s')
  | [] => by rwa [length_nil, zero_add]
  | e :: evs => by
    have hevent : laxEvent { r with fifo := e :: evs } s = some ((e, { r with fifo := evs }), s) := rfl
    rw [length_cons, add_right_comm, laxTake_succ hevent, laxTake_fifo h evs]
    rfl

theorem Sent.take (h : Sent sy evs bits sy') (r : Reader) (rest : List Bool) :
    laxTake evs.length { r with sy, fifo := [] } (bits ++ rest) = some ((evs, { r with sy := sy', fifo := [] }), rest) := by
  induction h with
  | nil sy => rfl
  | @cons sy sy' evs evs' bits bits' h _ ih =>
    obtain ⟨ext, tail, rfl, hreads⟩ := h.reads
    obtain ⟨e, fifo, rfl⟩ := h.ne_nil
    have hflag := reads_getFlag ext (tail ++ (bits' ++ rest))
    have hevent : laxEvent { r with sy, fifo := [] } ([ext] ++ tail ++ bits' ++ rest) =
        some ((e, { r with sy := (e :: fifo).foldl Syms.event sy, fifo }), bits' ++ rest) := by
      simp only [append_assoc] at hflag ⊢
      rw [laxEvent, if_pos rfl, bits_bind hflag]
      exact bits_bind (hreads _)
    rw [cons_append, length_cons, length_append, laxTake_succ hevent,
      laxTake_fifo (r := { r with sy := (e :: fifo).foldl Syms.event sy }) ih fifo]
    rfl

theorem Sent.table (h : Sent sy evs bits sy') : sy' = evs.foldl Syms.event sy := by
  induction h with
  | nil sy => rfl
  | cons _ _ ih => rw [ih, foldl_append]

/-! ## The writer -/

theorem message_of_eventBits (h : eventBits sy e = some bits) : Message sy [e] bits := by
  unfold eventBits at h
  cases hcode : sy.code e with
  | some code =>
    rw [hcode] at h
    cases h
    exact .code (Syms.byCode_code hcode)
  | none =>
    simp only [hcode] at h
    split at h
    · cases h
    · cases h
      exact .escape (by omega)

theorem sent_of_events {l l' : Writer} (h : evs.forM event l = some ((), l')) :
    ∃ bits, l'.bw = l.bw ++ bits ∧ Sent l.sy evs bits l'.sy := by
  induction evs generalizing l with
  | nil =>
    cases h
    exact ⟨[], (append_nil _).symm, .nil _⟩
  | cons e evs ih =>
    obtain ⟨_, l1, hevent, hrest⟩ := of_bind (m := event e) (f := fun _ => evs.forM event) h
    obtain ⟨bits, hbits, rfl⟩ := of_event hevent
    obtain ⟨bits', hbw, hsent⟩ := ih hrest
    exact ⟨bits ++ bits', by rw [hbw, append_assoc], .cons (message_of_eventBits hbits) hsent⟩

/-- The codes are the numbers below 128 and the entries are different after all events; a code stands for its event alone. Whoever reads
what the writer put gets its events and its table, also where codes stand for two or three events. -/
theorem symbol_tables_in_step (agg : Bool) : (∀ evs : List Nat, InOrder (evs.foldl Syms.event (Syms.init agg)).tab ∧
      ∀ e code, (evs.foldl Syms.event (Syms.init agg)).code e = some code →
        (evs.foldl Syms.event (Syms.init agg)).byCode code = some ⟨.one e, code⟩) ∧
    (∀ evs bits sy, Sent (Syms.init agg) evs bits sy → sy = evs.foldl Syms.event (Syms.init agg) ∧
      ∀ (r : Reader) (rest : List Bool), laxTake evs.length { r with sy := Syms.init agg, fifo := [] } (bits ++ rest) =
        some ((evs, { r with sy, fifo := [] }), rest)) ∧
    ∀ (evs : List Nat) (l l' : Writer), l.sy = Syms.init agg → evs.forM event l = some ((), l') →
      ∃ bits, l'.bw = l.bw ++ bits ∧ Sent (Syms.init agg) evs bits l'.sy := by
  refine ⟨fun evs => ⟨(inOrder_init agg).events evs, fun e code => Syms.byCode_code⟩,
    fun evs bits sy h => ⟨h.table, h.take⟩, fun evs l l' hl h => hl ▸ sent_of_events h⟩

/-- Five codes for eight events: after 1, 2 and 3 the code 126 stands for all three, then 127 for the first two. -/
theorem symbol_tables_in_step_learnt : ∃ sy, ∀ (r : Reader) (rest : List Bool),
    laxTake 8 { r with sy := Syms.init true, fifo := [] } ([1, 2, 3, 126, 127].flatMap (ofNat 8) ++ rest) =
      some (([1, 2, 3, 1, 2, 3, 1, 2], { r with sy, fifo := [] }), rest) := by
  have hsent : Sent (Syms.init true) [1, 2, 3, 1, 2, 3, 1, 2] ([1, 2, 3, 126, 127].flatMap (ofNat 8))
      ([1, 2, 3, 1, 2, 3, 1, 2].foldl Syms.event (Syms.init true)) := by
    have h1 : (Syms.init true).byCode 1 = some ⟨.one 1, 1⟩ := by rfl
    have h2 : ([1].foldl Syms.event (Syms.init true)).byCode 2 = some ⟨.one 2, 2⟩ := by rfl
    have h3 : ([1, 2].foldl Syms.event (Syms.init true)).byCode 3 = some ⟨.one 3, 3⟩ := by rfl
    have h4 : ([1, 2, 3].foldl Syms.event (Syms.init true)).byCode 126 = some ⟨.three 1 2 3, 126⟩ := by rfl
    have h5 : ([1, 2, 3, 1, 2, 3].foldl Syms.event (Syms.init true)).byCode 127 = some ⟨.two 1 2, 127⟩ := by rfl
    exact .cons (.code h1) (.cons (.code h2) (.cons (.code h3) (.cons (.code h4) (.cons (.code h5) (.nil _)))))
  exact ⟨_, ((symbol_tables_in_step true).2.1 _ _ _ hsent).2⟩

end DvbIpiTools.Bim.Lax
