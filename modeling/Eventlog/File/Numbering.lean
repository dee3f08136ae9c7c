import Eventlog.File.Erasing

/-!
# Eventlog.File.Numbering

The numbers of the events of a state: global positions grow along the feed, and the versions
of a stream are `1, 2, …`.
-/

namespace Eventlog.File

variable {B : Bodies} {s s' : State} {ts : List Json}

/-- The numbers of a state's events. -/
structure State.Numbered (s : State) : Prop where
  positions : (s.events.map RecordedEvent.globalSeq).Pairwise (· < ·)
  issued : ∀ e ∈ s.events, e.globalSeq ≤ s.nextPosition
  versions : ∀ stream, (s.ofStream stream).map RecordedEvent.version =
    List.range' 1 (s.ofStream stream).length

theorem numbered_empty : State.empty.Numbered where
  positions := List.Pairwise.nil
  issued _ he := nomatch he
  versions _ := rfl

theorem State.Numbered.head_eq (h : s.Numbered) (stream : StreamId) :
    s.head stream = (s.ofStream stream).length := by
  have hlast : (s.ofStream stream).getLast?.map RecordedEvent.version =
      (List.range' 1 (s.ofStream stream).length).getLast? := by
    rw [← h.versions, List.getLast?_map]
  rw [State.head, hlast, List.getLast?_range']
  split_ifs with hzero
  · simp [hzero]
  · simp

/-- The event of a stream is on that stream and no other. -/
theorem isOn_of_stream {e : RecordedEvent} {stream stream' : StreamId}
    (h : e.stream = .ok stream) : RecordedEvent.isOn e stream' = decide (stream' = stream) := by
  obtain ⟨htenant, htype, hid⟩ := StreamId.new_eq_ok_iff.mp h
  have hiff : stream' = stream ↔
      e.tenant = stream'.tenant ∧ e.streamType = stream'.streamType ∧ e.streamId = stream'.streamId := by
    constructor
    · rintro rfl
      exact ⟨htenant.symm, htype.symm, hid.symm⟩
    · rintro ⟨htenant', htype', hid'⟩
      have hnew := StreamId.new_eq_ok_iff.mpr ⟨htenant'.symm, htype'.symm, hid'.symm⟩
      rw [RecordedEvent.stream, hnew] at h
      exact Except.ok.inj h
  rw [Bool.eq_iff_iff, decide_eq_true_iff, hiff]
  simp [RecordedEvent.isOn, and_assoc]

theorem State.Numbered.of_same (h : s.Numbered) (hevents : s'.events = s.events)
    (hposition : s.nextPosition ≤ s'.nextPosition) : s'.Numbered where
  positions := by rw [hevents]; exact h.positions
  issued e he := le_trans (h.issued e (hevents ▸ he)) hposition
  versions stream := by
    have hstream : s'.ofStream stream = s.ofStream stream := by rw [State.ofStream, hevents]; rfl
    rw [hstream]
    exact h.versions stream

theorem apply_numbered {op : Op} (hs : s.Numbered) (h : s.apply op = .ok s') : s'.Numbered := by
  rcases State.apply_cases h with ⟨event, stream, rfl, hstream, hposition, hversion, rfl⟩ |
    ⟨name, indexed, rfl, -, rfl⟩ | ⟨hplain, rfl⟩
  · refine ⟨?_, fun e he => ?_, fun stream' => ?_⟩
    · rw [List.map_append, List.pairwise_append]
      refine ⟨hs.positions, by simp, fun p hp q hq => ?_⟩
      obtain ⟨e, he, rfl⟩ := List.mem_map.mp hp
      obtain rfl : q = event.globalSeq := by simpa using hq
      exact lt_of_le_of_lt (hs.issued e he) hposition
    · rcases List.mem_append.mp he with he | he
      · exact le_trans (hs.issued e he) (le_of_lt hposition)
      · rw [List.mem_singleton.mp he]
    · have hold := hs.versions stream'
      simp only [State.ofStream, List.filter_append, List.filter_cons, List.filter_nil,
        isOn_of_stream hstream] at hold ⊢
      by_cases heq : stream' = stream
      · subst heq
        have hhead := hs.head_eq stream'
        simp only [State.ofStream] at hhead
        simp only [decide_true, if_true, List.map_append, List.map_cons, List.map_nil,
          List.length_append, List.length_singleton, hold, hversion, hhead]
        rw [List.range'_concat]
        simp [Nat.add_comm]
      · simpa [heq] using hold
  · exact hs.of_same rfl (le_refl _)
  · have hnone : op.event? = none := by cases op <;> simp_all [Op.event?, Op.Plain]
    refine hs.of_same (by rw [apply_events h, hnone]; simp) ?_
    exact ((apply_nextPosition_le_iff h _).mp (le_refl _)).1

theorem applyAll_numbered {ops : List Op} (hs : s.Numbered) (h : s.applyAll ops = .ok s') :
    s'.Numbered :=
  applyAll_induction (fun _ _ _ hs _ happly => apply_numbered hs happly) hs h

theorem replay_numbered (hts : Journaled B ts) (h : State.replay ts = .ok s) : s.Numbered :=
  replayFrom_induction hts (fun _ _ _ hs _ _ happly => apply_numbered hs happly) numbered_empty h

end Eventlog.File
