import Os20.Console.Machine

/-!
# Typing and reading lines

The ring holds the text of a line editor: what waits to be read, and the line behind it.  The
screen shows that text behind all that has been read, and no reader sleeps while some of it is
ready.
-/

namespace Os20.Console

open Os20.Lib.Editor (Text Act editor shown gets)
open Os20.Lib.Refinement
open Os20.Lib.Transition

/-! ## The text in the ring -/

namespace Input

def count (i : Input) : Nat := (i.w - i.r).toNat

def chars (i : Input) : List UInt8 := Lib.Ring.segment inputBuf_pos i.buf i.r i.e

def text (i : Input) : Text UInt8 := ⟨i.chars.take i.count, i.chars.drop i.count⟩

def endsLine (c : UInt8) : Bool := c == newline || c == C 'D'

structure Ok (i : Input) : Prop where
  count : i.count ≤ i.chars.length
  length : i.chars.length ≤ inputBuf
  full : i.chars.length = inputBuf → i.count = inputBuf
  line : ∀ c ∈ i.text.line, endsLine c = false

variable {i i' : Input} {c : UInt8} {P : Type*}

@[simp] theorem length_chars (i : Input) : i.chars.length = (i.e - i.r).toNat :=
  Lib.Ring.length_segment ..

theorem toNat_sub_inj {r w e : UInt32} : (w - r).toNat = (e - r).toNat ↔ w = e := by
  rw [UInt32.toNat_inj]
  constructor
  · intro h
    grind
  · intro h
    rw [h]

theorem count_lt (h : i.Ok) (hne : i.e ≠ i.w) : i.count < i.chars.length := by
  have hcount := h.count
  have hdiff : i.count ≠ i.chars.length := by
    rw [length_chars, count]
    exact fun heq => hne (toNat_sub_inj.mp heq).symm
  omega

theorem line_eq_nil (heq : i.e = i.w) : i.text.line = [] := by
  rw [text, List.drop_eq_nil_iff, length_chars, count, heq]

def act (P : Type*) : Out → Act P UInt8
  | .putc c => .add c
  | .backspace => .erase
  | .wakeup => .commit

structure Does (i : Input) (acts : List (Act P UInt8)) (i' : Input) : Prop where
  ok : i'.Ok
  run : (editor P UInt8 inputBuf).run i.text acts = some i'.text

theorem Does.refl (h : i.Ok) : Does (P := P) i [] i := ⟨h, rfl⟩

theorem Does.trans {i'' : Input} {acts acts' : List (Act P UInt8)} (h : Does i acts i')
    (h' : Does i' acts' i'') : Does i (acts ++ acts') i'' :=
  ⟨h'.ok, by rw [System.run_append, h.run]; exact h'.run⟩

theorem text_concat {cs : List UInt8} (hchars : i.chars = cs ++ [c])
    (hcount : i.count ≤ cs.length) : i.text = ⟨cs.take i.count, cs.drop i.count ++ [c]⟩ := by
  rw [text, hchars, List.take_append_of_le_length hcount, List.drop_append_of_le_length hcount]

/-! ## Keys -/

theorem chars_concat (h : i.Ok) (hne : i.e ≠ i.w) :
    i.chars = ({ i with e := i.e - 1 } : Input).chars ++
      [i.buf (Lib.Ring.slot inputBuf inputBuf_pos (i.e - 1))] := by
  have hlt := count_lt h hne
  refine Lib.Ring.segment_concat fun heq => ?_
  rw [length_chars, heq] at hlt
  simp at hlt

theorem backspace_does (h : i.Ok) (hne : i.e ≠ i.w) :
    Does (P := P) i [.erase] { i with e := i.e - 1 } := by
  have hchars := chars_concat h hne
  have hlt := count_lt h hne
  have hlength := congrArg List.length hchars
  rw [List.length_append, List.length_singleton] at hlength
  have htext := text_concat hchars (by omega)
  have hle := h.length
  refine ⟨⟨?_, ?_, ?_, ?_⟩, ?_⟩
  · change i.count ≤ _
    omega
  · omega
  · intro hfull
    omega
  · intro c hc
    refine h.line c ?_
    rw [htext]
    exact List.mem_append_left _ hc
  · rw [htext, Lib.Editor.run_erase]
    rfl

theorem killLine_does (h : i.Ok) {fuel : Nat} (hfuel : i.chars.length - i.count = fuel) :
    Does i ((killLine fuel i).2.map (act P)) (killLine fuel i).1 ∧
      (killLine fuel i).1.text.line = [] := by
  induction fuel generalizing i with
  | zero =>
      refine ⟨.refl h, ?_⟩
      change i.chars.drop i.count = []
      rw [List.drop_eq_nil_iff]
      omega
  | succ fuel ih =>
      have hne : i.e ≠ i.w := by
        intro heq
        have hnil := congrArg List.length (line_eq_nil heq)
        rw [text, List.length_drop, List.length_nil] at hnil
        omega
      have hchars := chars_concat h hne
      have hlength := congrArg List.length hchars
      rw [List.length_append, List.length_singleton] at hlength
      have hlast : i.buf (Lib.Ring.slot inputBuf inputBuf_pos (i.e - 1)) ≠ newline := by
        have hmem := h.line (i.buf (Lib.Ring.slot inputBuf inputBuf_pos (i.e - 1)))
          (by rw [text_concat hchars (by omega)]; simp)
        intro heq
        rw [heq] at hmem
        simp [endsLine] at hmem
      have hstep := backspace_does (P := P) h hne
      obtain ⟨hrest, hline⟩ := ih hstep.ok (by change _ - i.count = fuel; omega)
      rw [killLine, if_pos ⟨hne, hlast⟩]
      exact ⟨hstep.trans hrest, hline⟩

theorem chars_put (hroom : i.chars.length < inputBuf) (c : UInt8) :
    (i.put c).chars = i.chars ++ [c] := by
  rw [length_chars] at hroom
  exact Lib.Ring.segment_push (by decide) (by decide) hroom c

theorem text_put (h : i.Ok) (hroom : i.chars.length < inputBuf) (c : UInt8) :
    (i.put c).text = ⟨i.text.ready, i.text.line ++ [c]⟩ := by
  have hcount : (i.put c).count = i.count := rfl
  rw [text_concat (chars_put hroom c) (by rw [hcount]; exact h.count), hcount]
  rfl

theorem put_does (h : i.Ok) (hroom : i.chars.length < inputBuf) (hends : endsLine c = false)
    (hfull : (i.put c).e ≠ (i.put c).r + UInt32.ofNat inputBuf) :
    Does (P := P) i [.add c] (i.put c) := by
  have hchars := chars_put hroom c
  have htext := text_put h hroom c
  have hlength : (i.put c).chars.length = i.chars.length + 1 := by simp [hchars]
  have hnot : (i.put c).chars.length ≠ inputBuf := by
    have hsize : (UInt32.ofNat inputBuf).toNat = inputBuf := by decide
    rw [length_chars, ← hsize]
    intro heq
    rw [UInt32.toNat_inj] at heq
    apply hfull
    rw [← heq]
    grind
  have hcount := h.count
  refine ⟨⟨?_, by omega, fun heq => absurd heq hnot, ?_⟩, ?_⟩
  · change i.count ≤ _
    omega
  · rw [htext]
    intro b hb
    rcases List.mem_append.mp hb with hb | hb
    · exact h.line b hb
    · rw [List.mem_singleton.mp hb]
      exact hends
  · have hboth : i.text.ready ++ i.text.line = i.chars := List.take_append_drop ..
    rw [htext]
    refine Lib.Editor.run_add (t := i.text) ?_ c
    rw [← List.length_append, hboth]
    exact hroom

theorem commit_does (hroom : i.chars.length < inputBuf) (c : UInt8) :
    Does (P := P) i [.add c, .commit] { i.put c with w := (i.put c).e } := by
  have hchars := chars_put hroom c
  have hlength : (i.put c).chars.length = i.chars.length + 1 := by simp [hchars]
  have hcount : ({ i.put c with w := (i.put c).e } : Input).count = (i.put c).chars.length :=
    (length_chars _).symm
  have hboth : i.text.ready ++ i.text.line = i.chars := List.take_append_drop ..
  have htext : ({ i.put c with w := (i.put c).e } : Input).text =
      ⟨i.text.ready ++ (i.text.line ++ [c]), []⟩ := by
    rw [← List.append_assoc, hboth, ← hchars]
    refine congrArg₂ Text.mk ?_ ?_
    · rw [hcount]
      exact List.take_length
    · rw [hcount]
      exact List.drop_length
  refine ⟨⟨hcount.le, ?_, fun hfull => hcount.trans hfull, ?_⟩, ?_⟩
  · change (i.put c).chars.length ≤ inputBuf
    omega
  · rw [htext]
    simp
  · have hadd : (editor P UInt8 inputBuf).run i.text [.add c] =
        some ⟨i.text.ready, i.text.line ++ [c]⟩ := by
      refine Lib.Editor.run_add (t := i.text) ?_ c
      rw [← List.length_append, hboth]
      exact hroom
    rw [htext, ← List.singleton_append, System.run_append, hadd]
    rfl

theorem accept_does (h : i.Ok) (hroom : i.chars.length < inputBuf) (c : UInt8) :
    Does i ((i.accept c).2.map (act P)) (i.accept c).1 := by
  unfold accept
  dsimp only
  split
  · exact commit_does hroom c
  · next hgoes =>
      rw [not_or, not_or] at hgoes
      refine put_does h hroom ?_ hgoes.2.2
      simpa [endsLine] using ⟨hgoes.1, hgoes.2.1⟩

theorem key_does (h : i.Ok) (c : UInt8) :
    Does i ((i.key c).2.map (act P)) (i.key c).1 := by
  unfold key
  split
  · exact .refl h
  · split
    · refine (killLine_does h ?_).1
      have hcount := h.count
      rw [length_chars, count] at hcount ⊢
      have hsub : i.e - i.w = i.e - i.r - (i.w - i.r) := by grind
      rw [hsub, UInt32.toNat_sub_of_le _ _ hcount]
    · split
      · split
        · next hne => exact backspace_does h hne
        · exact .refl h
      · split
        · next hroom =>
            have hsize : (UInt32.ofNat inputBuf).toNat = inputBuf := by decide
            have hlt := UInt32.lt_iff_toNat_lt.mp hroom.2
            rw [hsize, ← length_chars] at hlt
            exact accept_does h hlt _
        · exact .refl h

theorem consoleintr_does (h : i.Ok) (cs : List UInt8) :
    Does i ((i.consoleintr cs).2.map (act P)) (i.consoleintr cs).1 := by
  induction cs generalizing i with
  | nil => exact .refl h
  | cons c cs ih =>
      have hkey := key_does (P := P) h c
      rw [consoleintr]
      dsimp only
      rw [List.map_append]
      exact hkey.trans (ih hkey.ok)

/-! ## Reading -/

theorem get_does (h : i.Ok) (hne : i.r ≠ i.w) (p : P) :
    Does i [.get p i.get.1] i.get.2 ∧ i.get.2.text.line = i.text.line := by
  have hpos : 0 < i.count := Lib.Ring.toNat_sub_pos hne
  have hcount : i.get.2.count = i.count - 1 := Lib.Ring.toNat_sub_sub_one hne
  have hle := h.count
  have hchars : i.chars = i.get.1 :: i.get.2.chars := by
    refine Lib.Ring.segment_pop fun heq => ?_
    rw [length_chars, heq] at hle
    simp at hle
    omega
  obtain ⟨k, hk⟩ : ∃ k, i.count = k + 1 := ⟨i.count - 1, by omega⟩
  have htext : i.text = ⟨i.get.1 :: i.get.2.text.ready, i.get.2.text.line⟩ := by
    rw [text, hchars, hk, List.take_succ_cons, List.drop_succ_cons, text, hcount, hk,
      Nat.add_sub_cancel]
  have hlength := congrArg List.length hchars
  rw [List.length_cons] at hlength
  have hbound := h.length
  refine ⟨⟨⟨by omega, by omega, fun hfull => by omega, ?_⟩, ?_⟩, ?_⟩
  · have hline := h.line
    rw [htext] at hline
    exact hline
  · rw [htext]
    exact Lib.Editor.run_gets p [i.get.1] i.get.2.text.ready i.get.2.text.line
  · rw [htext]

theorem ready_eq_nil_iff (h : i.Ok) : i.text.ready = [] ↔ i.r = i.w := by
  have hle := h.count
  rw [text, List.take_eq_nil_iff]
  constructor
  · intro hnil
    by_contra hne
    have hpos : 0 < i.count := Lib.Ring.toNat_sub_pos hne
    rcases hnil with hnil | hnil
    · omega
    · rw [hnil] at hle
      simp at hle
      omega
  · intro heq
    left
    simp [count, heq]

def taken (p : P) (cs : List UInt8) (eof : Bool) : List (Act P UInt8) :=
  cs.map (.get p) ++ if eof then [.get p (C 'D')] else []

theorem copy_does (h : i.Ok) (p : P) (target n : Nat) :
    Does i (taken p (copy target n i).1 (copy target n i).2.1) (copy target n i).2.2.2 ∧
      ((copy target n i).2.2.1 = false → (copy target n i).2.2.2.text.ready = []) := by
  induction n generalizing i with
  | zero => exact ⟨.refl h, fun hnot => by cases hnot⟩
  | succ n ih =>
      rw [copy]
      split
      · next hempty => exact ⟨.refl h, fun _ => (ready_eq_nil_iff h).mpr hempty⟩
      · next hsome =>
          have hget := (get_does h hsome p).1
          dsimp only
          split
          · next heof =>
              split
              · -- The control-D stays for the next call.
                have hback : ({ i.get.2 with r := i.get.2.r - 1 } : Input) = i := by
                  have hr : i.r + 1 - 1 = i.r := by grind
                  simp only [get, hr]
                rw [hback]
                exact ⟨.refl h, fun hnot => by cases hnot⟩
              · rw [heof] at hget
                exact ⟨hget, fun hnot => by cases hnot⟩
          · split
            · exact ⟨hget, fun hnot => by cases hnot⟩
            · obtain ⟨hrest, hready⟩ := ih hget.ok
              refine ⟨?_, hready⟩
              rw [taken, List.map_cons, List.cons_append]
              exact hget.trans hrest

/-- No control-D, and a newline at the end only. -/
def OneLine (dst : List UInt8) : Prop := C 'D' ∉ dst ∧ newline ∉ dst.dropLast

theorem copy_oneLine (target n : Nat) (i : Input) : OneLine (copy target n i).1 ∧
    ((copy target n i).2.2.1 = false → ∀ c ∈ (copy target n i).1, endsLine c = false) := by
  induction n generalizing i with
  | zero => exact ⟨⟨by simp [copy], by simp [copy]⟩, fun hnot => by cases hnot⟩
  | succ n ih =>
      have hnone : OneLine [] := ⟨by simp, by simp⟩
      rw [copy]
      split
      · exact ⟨hnone, fun _ c hc => by cases hc⟩
      · dsimp only
        split
        · split
          · exact ⟨hnone, fun hnot => by cases hnot⟩
          · exact ⟨hnone, fun hnot => by cases hnot⟩
        · next heof =>
            split
            · exact ⟨⟨by simpa using Ne.symm heof, by simp⟩, fun hnot => by cases hnot⟩
            · next hgoes =>
                obtain ⟨hline, hrest⟩ := ih i.get.2
                refine ⟨⟨?_, ?_⟩, fun hnot c hc => ?_⟩
                · rw [List.mem_cons, not_or]
                  exact ⟨Ne.symm heof, hline.1⟩
                · cases hcs : (copy target n i.get.2).1 with
                  | nil => simp
                  | cons c cs =>
                      rw [List.dropLast_cons_of_ne_nil (by simp), List.mem_cons, not_or, ← hcs]
                      exact ⟨Ne.symm hgoes, hline.2⟩
                · rcases List.mem_cons.mp hc with rfl | hc
                  · simpa [endsLine] using ⟨hgoes, heof⟩
                  · exact hrest hnot c hc

theorem OneLine.append {dst cs : List UInt8} (hdst : ∀ c ∈ dst, endsLine c = false)
    (hcs : OneLine cs) : OneLine (dst ++ cs) := by
  have hfree (c : UInt8) (hends : endsLine c = true) : c ∉ dst := by
    intro hc
    rw [hdst c hc] at hends
    cases hends
  refine ⟨?_, ?_⟩
  · rw [List.mem_append, not_or]
    exact ⟨hfree _ (by decide), hcs.1⟩
  · by_cases hnil : cs = []
    · rw [hnil, List.append_nil]
      exact fun hc => hfree newline (by decide) (List.mem_of_mem_dropLast hc)
    · rw [List.dropLast_append_of_ne_nil hnil, List.mem_append, not_or]
      exact ⟨hfree _ (by decide), hcs.2⟩

theorem ready_of_not_wakeup {outs : List Out} {t t' : Text UInt8} (hout : .wakeup ∉ outs)
    (hrun : (editor P UInt8 inputBuf).run t (outs.map (act P)) = some t') :
    t'.ready = t.ready := by
  induction outs generalizing t with
  | nil =>
      obtain rfl : t = t' := Option.some.inj hrun
      rfl
  | cons out outs ih =>
      rw [List.mem_cons, not_or] at hout
      obtain ⟨u, hnext, hrest⟩ := Option.bind_eq_some_iff.mp hrun
      have hu : u.ready = t.ready := by
        cases out with
        | putc c =>
            have hadd := (Option.ite_none_right_eq_some.mp hnext).2
            cases hadd
            rfl
        | backspace =>
            have herase := (Option.ite_none_left_eq_some.mp hnext).2
            cases herase
            rfl
        | wakeup => exact absurd rfl hout.1
      rw [ih hout.2 hrest, hu]

theorem copy_of_empty {target n : Nat} (hempty : i.r = i.w) : (copy target n i).2.2.2 = i := by
  cases n with
  | zero => rfl
  | succ n => rw [copy, if_pos hempty]

end Input

/-! ## Runs -/

variable {P : Type*} [DecidableEq P] {s s' : State P} {p : P} {e : Event P}

def Task.Fine : Task → Prop
  | .user _ dst => Input.OneLine dst
  | .reading _ dst _ => ∀ c ∈ dst, Input.endsLine c = false

structure Good (s : State P) : Prop where
  input : s.input.Ok
  task : ∀ p, (s.task p).Fine
  asleep : ∀ p target dst, s.task p = .reading target dst true → s.input.text.ready = []

def view (s : State P) : Event P → List (Act P UInt8)
  | .intr keys => (s.input.consoleintr keys).2.map (Input.act P)
  | .step p =>
      match s.task p with
      | .reading target dst false =>
          Input.taken p (s.input.copy target (target - dst.length)).1
            (s.input.copy target (target - dst.length)).2.1
      | _ => []
  | .read _ _ | .kill _ _ => []

theorem Task.wake_fine {t : Task} (h : t.Fine) : t.wake.Fine := by
  cases t with
  | user | reading => exact h

theorem Task.wake_not_asleep (t : Task) (target : Nat) (dst : List UInt8) :
    t.wake ≠ .reading target dst true := by
  cases t with
  | user | reading => simp [Task.wake]

namespace Good

theorem setTask (h : Good s) {t : Task} (ht : t.Fine)
    (hsleeps : ∀ target dst, t = .reading target dst true → s.input.text.ready = []) :
    Good (s.setTask p t) := by
  have hself : (s.setTask p t).task p = t := Function.update_self ..
  have hother {q : P} (hq : q ≠ p) : (s.setTask p t).task q = s.task q :=
    Function.update_of_ne hq ..
  refine ⟨h.input, fun q => ?_, fun q target dst hq => ?_⟩
  · by_cases hqp : q = p
    · rw [hqp, hself]
      exact ht
    · rw [hother hqp]
      exact h.task q
  · by_cases hqp : q = p
    · rw [hqp, hself] at hq
      exact hsleeps target dst hq
    · rw [hother hqp] at hq
      exact h.asleep q target dst hq

omit [DecidableEq P] in
theorem intr (h : Good s) (keys : List UInt8) : Good (s.intr keys) := by
  have hdoes := Input.consoleintr_does (P := P) h.input keys
  refine ⟨hdoes.ok, fun q => ?_, fun q target dst hq => ?_⟩
  · simp only [State.intr]
    split
    · exact Task.wake_fine (h.task q)
    · exact h.task q
  · simp only [State.intr] at hq
    split at hq
    · exact absurd hq (Task.wake_not_asleep _ _ _)
    · next hout =>
        exact (Input.ready_of_not_wakeup hout hdoes.run).trans (h.asleep q target dst hq)

theorem consoleread (h : Good s) {target : Nat} {dst : List UInt8}
    (htask : s.task p = .reading target dst false) : Good (s.consoleread p target dst) := by
  obtain ⟨hdoes, hready⟩ := Input.copy_does h.input p target (target - dst.length)
  obtain ⟨hline, hgoes⟩ := Input.copy_oneLine target (target - dst.length) s.input
  have hdst : ∀ c ∈ dst, Input.endsLine c = false := by
    have hfine := h.task p
    rw [htask] at hfine
    exact hfine
  have hasleep (q : P) (target' : Nat) (dst' : List UInt8)
      (hq : s.task q = .reading target' dst' true) :
      (s.input.copy target (target - dst.length)).2.2.2.text.ready = [] := by
    have hnil := h.asleep q target' dst' hq
    rw [Input.copy_of_empty ((Input.ready_eq_nil_iff h.input).mp hnil)]
    exact hnil
  have hcopied : Good ({ s with
      input := (s.input.copy target (target - dst.length)).2.2.2 } : State P) :=
    ⟨hdoes.ok, h.task, hasleep⟩
  unfold State.consoleread
  dsimp only
  split
  · exact hcopied.setTask (hline.append hdst) fun _ _ hnot => by cases hnot
  · next hnot =>
      rw [Bool.not_eq_true] at hnot
      split
      · exact hcopied.setTask (hline.append hdst) fun _ _ hnot => by cases hnot
      · refine hcopied.setTask (fun c hc => ?_) fun _ _ _ => hready hnot
        rcases List.mem_append.mp hc with hc | hc
        · exact hdst c hc
        · exact hgoes hnot c hc

theorem kill (h : Good s) (p : P) (asleep : Bool) : Good (s.kill p asleep) := by
  cases asleep with
  | false => exact ⟨h.input, h.task, h.asleep⟩
  | true =>
      have hset : Good (s.setTask p (s.task p).wake) :=
        h.setTask (Task.wake_fine (h.task p)) fun target dst hnot =>
          absurd hnot (Task.wake_not_asleep _ _ _)
      exact ⟨h.input, hset.task, hset.asleep⟩

theorem next (h : Good s) (hnext : s.next e = some s') :
    (editor P UInt8 inputBuf).run s.input.text (view s e) = some s'.input.text ∧ Good s' := by
  cases e with
  | intr keys =>
      cases hnext
      exact ⟨(Input.consoleintr_does h.input keys).run, h.intr keys⟩
  | read p n =>
      simp only [State.next] at hnext
      split at hnext
      · obtain ⟨-, hset⟩ := Option.ite_none_left_eq_some.mp hnext
        cases hset
        exact ⟨rfl, h.setTask (fun c hc => by cases hc) fun _ _ hnot => by cases hnot⟩
      · cases hnext
  | step p =>
      simp only [State.next] at hnext
      split at hnext
      · next target dst htask =>
          cases hnext
          refine ⟨?_, h.consoleread htask⟩
          have hinput : (s.consoleread p target dst).input =
              (s.input.copy target (target - dst.length)).2.2.2 := by
            unfold State.consoleread
            dsimp only
            split
            · rfl
            · split
              · rfl
              · rfl
          simp only [view, htask, hinput]
          exact (Input.copy_does h.input p target (target - dst.length)).1.run
      · cases hnext
  | kill p asleep =>
      cases hnext
      exact ⟨rfl, h.kill p asleep⟩

theorem init (hinit : (consoles P).init s) : Good s ∧ s.input.text = ⟨[], []⟩ := by
  obtain ⟨⟨hr, hw, he⟩, htask⟩ := hinit
  have hchars : s.input.chars = [] := by
    rw [Input.chars, hr, he, Lib.Ring.segment_self]
  have htext : s.input.text = ⟨[], []⟩ := by rw [Input.text, hchars, List.take_nil, List.drop_nil]
  have hcount : s.input.count = 0 := by rw [Input.count, hr, hw]; rfl
  refine ⟨⟨⟨?_, ?_, ?_, ?_⟩, fun p => ?_, fun p target dst hp => ?_⟩, htext⟩
  · rw [hcount]
    exact Nat.zero_le _
  · rw [hchars]
    exact Nat.zero_le _
  · rw [hchars]
    intro hfull
    cases hfull
  · rw [htext]
    simp
  · obtain ⟨ret, hret⟩ := htask p
    rw [hret]
    exact ⟨by simp, by simp⟩
  · obtain ⟨ret, hret⟩ := htask p
    rw [hret] at hp
    cases hp

end Good

/-- The console refines a line editor with room for 128 characters. -/
theorem refines_editor : Refines (consoles P) (fun _ _ => True) (editor P UInt8 inputBuf) view
    fun s t => t = s.input.text ∧ Good s where
  init s hinit := ⟨⟨[], []⟩, rfl, (Good.init hinit).2.symm, (Good.init hinit).1⟩
  step s t e s' hR _ hnext := by
    obtain ⟨rfl, hgood⟩ := hR
    obtain ⟨hrun, hgood'⟩ := hgood.next hnext
    exact ⟨_, hrun, rfl, hgood'⟩

/-- For all keys, readers and runs: the screen shows what was read, what is ready and the line
that is edited, in this order.  The ring never overflows and is never full without anything to
read, a reader sleeps only while nothing is ready, and a read returns no more than a line. -/
theorem console_lines (s₀ s : State P) (es : List (Event P)) (hinit : (consoles P).init s₀)
    (hrun : (consoles P).run s₀ es = some s) :
    shown [] (trace (consoles P) view s₀ es) =
        gets (trace (consoles P) view s₀ es) ++ s.input.text.ready ++ s.input.text.line ∧
      s.input.chars.length ≤ inputBuf ∧
      (s.input.chars.length = inputBuf → s.input.text.line = []) ∧
      (∀ p target dst, s.task p = .reading target dst true → s.input.text.ready = []) ∧
      ∀ p ret dst, s.task p = .user ret dst → Input.OneLine dst := by
  rw [← runWhere_true] at hrun
  obtain ⟨t, ht, rfl, hgood⟩ := refines_editor.run ⟨(Good.init hinit).2.symm, (Good.init hinit).1⟩
    hrun
  have hshown := Lib.Editor.shown_eq [] ht
  refine ⟨hshown, hgood.input.length, fun hfull => ?_, hgood.asleep, fun p ret dst hp => ?_⟩
  · rw [Input.text, List.drop_eq_nil_iff, hgood.input.full hfull, hfull]
  · have hfine := hgood.task p
    rw [hp] at hfine
    exact hfine

def booted : State Bool where
  input := ⟨fun _ => 0, 0, 0, 0⟩
  killed _ := false
  task _ := .user 0 []

theorem booted_init : (consoles Bool).init booted :=
  ⟨⟨rfl, rfl, rfl⟩, fun _ => ⟨0, rfl⟩⟩

/-- A reader waits for a line of two characters, one of which is typed twice. -/
def mistyped : List (Event Bool) :=
  [.read false 100, .step false,
    .intr [0x61, 0x62, 0x7f], .intr [0x63, 0x0d], .step false]

theorem console_lines_mistyped :
    ∃ s, (consoles Bool).run booted mistyped = some s ∧
      s.task false = .user 3 [0x61, 0x63, newline] ∧
      shown [] (trace (consoles Bool) view booted mistyped) =
        [0x61, 0x63, newline] ++ s.input.text.ready ++ s.input.text.line := by
  have hgets : gets (trace (consoles Bool) view booted mistyped) = [0x61, 0x63, newline] := by
    decide +kernel
  have hend : ((consoles Bool).run booted mistyped).any (fun s =>
      decide (s.task false = .user 3 [0x61, 0x63, newline])) = true := by decide +kernel
  obtain ⟨s, hrun, htask⟩ := (Option.any_eq_true _ _).mp hend
  have hshown := (console_lines booted s mistyped booted_init hrun).1
  rw [hgets] at hshown
  exact ⟨s, hrun, of_decide_eq_true htask, hshown⟩

end Os20.Console
