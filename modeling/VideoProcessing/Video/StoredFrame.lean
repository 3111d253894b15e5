import VideoProcessing.Video.FrameIntegrity

/-!
# A frame that is stored in memory

When every frame starts at the same pointer and the slave returns, for every word of the
frame buffer, what the buffer holds, the display shows the buffer: the word for the
position `(x, y)` is number `960 * y + x`.
-/

namespace VideoProcessing
namespace VideoPipeline

open Lib

/-- All frames of a log started at `ptr`, and for word `k` of the buffer there the slave
returned `frame k`. -/
structure Serves (ptr : BitVec 32) (frame : Nat → BitVec 32)
    (l : List (VideoPipeline × Event)) : Prop where
  pointer : ∀ a ∈ latched l, a = ptr
  words : ∀ w ∈ DmaBus.pushed (busLog l), ∀ k, k < 518400 →
    w.1 = ptr + 4 * BitVec.ofNat 32 k → w.2 = frame k

variable {s : VideoPipeline} {l : List (VideoPipeline × Event)} {e : Event}
  {ptr : BitVec 32} {frame : Nat → BitVec 32}

theorem serves_nil (ptr : BitVec 32) (frame : Nat → BitVec 32) : Serves ptr frame [] :=
  ⟨fun _ h => absurd h List.not_mem_nil, fun _ h => absurd h List.not_mem_nil⟩

/-- One more event: its trigger latches the pointer, and its word is the one stored. -/
theorem Serves.step (h : Serves ptr frame l)
    (hptr : s.triggers e = true → s.csr.shadowPtr = ptr)
    (hword : ∀ c a d, e.clkIn = some c → s.dmaFifo.bus.returned (s.busCycle c) = some (a, d) →
      ∀ k, k < 518400 → a = ptr + 4 * BitVec.ofNat 32 k → d = frame k) :
    Serves ptr frame (l ++ [(s, e)]) where
  pointer a ha := by
    rw [latched_snoc, List.mem_append] at ha
    rcases ha with ha | ha
    · exact h.pointer a ha
    · split at ha
      · next htrig =>
          rw [List.mem_singleton.1 ha]
          exact hptr htrig
      · exact absurd ha List.not_mem_nil
  words w hw := by
    rw [busLog_snoc, DmaBus.pushed_append, List.mem_append] at hw
    rcases hw with hw | hw
    · exact h.words w hw
    · cases hc : e.clkIn with
      | none =>
          rw [hc] at hw
          exact absurd hw List.not_mem_nil
      | some c =>
          rw [hc] at hw
          obtain ⟨p, hp, hret⟩ := List.mem_filterMap.1 hw
          obtain rfl := List.mem_singleton.1 hp
          exact hword c w.1 w.2 hc hret

/-- A word comes only for a frame that was started. -/
theorem Wired.latched_pos (h : Wired s l) {c : ClkIn} {w : BitVec 32 × BitVec 32}
    (hret : s.dmaFifo.bus.returned (s.busCycle c) = some w) : 0 < (latched l).length := by
  rcases Nat.eq_zero_or_pos (latched l).length with hnone | hpos
  · rw [(h.idle_of_none hnone).returned] at hret
    exact absurd hret (by simp)
  · exact hpos

/-- What is on the display comes from the buffer, through the gamma stage with the
registers that the last pixel clock found. -/
theorem Displaying.shown {look : HdmiCsr → Prop} (h : Displaying look s l) (hw : Wired s l)
    (hserves : Serves ptr frame l) (hpos : 0 < (latched l).length) {x y : Nat}
    (hat : s.ShownAt x y) :
    ∃ c, sampled l = some c ∧ look c ∧ s.pixel.hdmiD =
      HdmiPixel.outputColor c.gammaEn c.lutMem ((frame (960 * y + x)).setWidth 24) := by
  obtain ⟨n, hn⟩ : ∃ n, (latched l).length = n + 1 :=
    ⟨_, (Nat.succ_pred_eq_of_pos hpos).symm⟩
  obtain ⟨d, c, hd, hsampled, hlook, hout⟩ := h.output n x y hn hat
  obtain ⟨a, ha, hget⟩ := hw.pushed_of_taken hn hat hd
  have hx := hat.x_lt
  have hy := hat.y_lt
  have hptr : a = ptr := hserves.pointer a (List.mem_of_getElem? ha)
  have hword := hserves.words _ (List.mem_of_getElem? hget) (960 * y + x) (by omega)
    (by rw [hptr])
  rw [← hword]
  exact ⟨c, hsampled, hlook, hout⟩

end VideoPipeline
end VideoProcessing
