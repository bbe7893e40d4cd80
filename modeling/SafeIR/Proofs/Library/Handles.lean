import Mathlib.Data.List.Basic
import SafeIR.Library.Basic
import SafeIR.Proofs.Result

/-!
# Handles of a library

A library is a map from handles to modules. What is open is told from the calls made and their
answers alone (`OpenWith`): a call returned the handle and none closed it since. `step_cases` says
what a call can do, `Agrees` that a library is what the calls before made of it, and an induction on
the calls gives it for every library that is reached.
-/

namespace SafeIR.Library

/-! ## Calls and answers -/

/-- The bytes that a call opens a module with. -/
def Call.bytes? : Call → Option (List UInt8)
  | openText text => some text
  | openPath _ (.ok text) => some text
  | _ => none

/-- The call opens a module, or tries to. -/
def Call.isOpen : Call → Bool
  | openText _ | openPath .. => true
  | _ => false

/-- The handle that a call names. -/
def Call.handle? : Call → Option Handle
  | close h => some h
  | query h _ => some h
  | _ => none

/-- A call and its answer. -/
abbrev Event := Call × Except Error Answer

variable {l : Library} {text : List UInt8} {h : Handle} {past : List Event} {c : Call} {α : Type}
  {e : Event}

/-- The answers to the calls that opened a module. -/
def opens (events : List Event) : List (Except Error Answer) :=
  (events.filter fun e => e.1.isOpen && e.2.isOk).map Prod.snd

/-- After the events, `h` is open: a call that opened a module with `text` returned it, and it was
not closed since. -/
def OpenWith (events : List Event) (h : Handle) (text : List UInt8) : Prop :=
  ∃ before call later, events = before ++ (call, .ok (.handle h)) :: later ∧
    call.bytes? = some text ∧ ∀ answer, (.close h, .ok answer) ∉ later

theorem not_openWith_nil (h : Handle) (text : List UInt8) : ¬ OpenWith [] h text := by
  rintro ⟨before, call, later, heq, -⟩
  simp at heq

/-- One more event opens a handle, or leaves it open and does not close it. -/
theorem openWith_append {events : List Event} :
    OpenWith (events ++ [e]) h text ↔
      (e.2 = .ok (.handle h) ∧ e.1.bytes? = some text) ∨
        (OpenWith events h text ∧ ∀ answer, e ≠ (.close h, .ok answer)) := by
  constructor
  · rintro ⟨before, call, later, heq, hbytes, hclosed⟩
    rcases List.eq_nil_or_concat later with rfl | ⟨later, last, rfl⟩
    · -- the handle is returned by the last event
      obtain ⟨-, heq⟩ := List.append_inj' heq rfl
      obtain rfl := List.singleton_inj.mp heq
      exact .inl ⟨rfl, hbytes⟩
    · rw [List.concat_eq_append, ← List.cons_append, ← List.append_assoc] at heq
      obtain ⟨rfl, hlast⟩ := List.append_inj' heq rfl
      obtain rfl := List.singleton_inj.mp hlast
      refine .inr ⟨⟨before, call, later, rfl, hbytes, fun answer hmem => ?_⟩, ?_⟩
      · exact hclosed answer (by simp [hmem])
      · rintro answer rfl
        exact hclosed answer (by simp)
  · rintro (⟨hanswer, hbytes⟩ | ⟨⟨before, call, later, rfl, hbytes, hclosed⟩, hlast⟩)
    · obtain ⟨call, answer⟩ := e
      obtain rfl : answer = .ok (.handle h) := hanswer
      exact ⟨events, call, [], rfl, hbytes, by simp⟩
    · refine ⟨before, call, later ++ [e], by simp, hbytes, fun answer hmem => ?_⟩
      rcases List.mem_append.mp hmem with hmem | hmem
      · exact hclosed answer hmem
      · exact hlast answer (List.mem_singleton.mp hmem).symm

/-! ## Answers to queries -/

/-- The answer is not that a handle is invalid. -/
def Valid {α : Type} (x : Except Error α) : Prop := ∀ h, x ≠ .error (.invalidHandle h)

theorem Valid.ok (a : α) : Valid (.ok a : Except Error α) := by
  intro h heq
  cases heq

theorem Valid.bind {β : Type} {x : Except Error α} {f : α → Except Error β} (hx : Valid x)
    (hf : ∀ a, Valid (f a)) : Valid (x >>= f) := by
  cases x with
  | error e =>
    intro h heq
    cases heq
    exact hx h rfl
  | ok a => exact hf a

theorem valid_item (what : String) (items : List α) (index : Nat) :
    Valid (Query.item what items index) := by
  intro h heq
  unfold Query.item at heq
  split at heq <;> cases heq

theorem item_of_some {items : List α} {index : Nat} {a : α} (h : items[index]? = some a)
    (what : String) : Query.item what items index = .ok a := by
  rw [Query.item, h]

theorem valid_instructionAt (m : Source.Module) (f b i : Nat) :
    Valid (Query.instructionAt m f b i) :=
  ((valid_item _ _ _).bind fun _ => valid_item _ _ _).bind fun _ => valid_item _ _ _

/-- What is asked of a module may be out of range, but the handle is not to blame. -/
theorem valid_answer [Demangler] (m : Source.Module) (q : Query) : Valid (q.answer m) := by
  cases q with
  | info | types | globalCount | functionCount => exact .ok _
  | global g | constantData g => exact (valid_item _ _ g).bind fun _ => .ok _
  | function f | returnType f | functionType f | demangledName f =>
    exact (valid_item _ _ f).bind fun _ => .ok _
  | block f b => exact ((valid_item _ _ f).bind fun _ => valid_item _ _ b).bind fun _ => .ok _
  | instruction f b i | noSignedWrap f b i | noUnsignedWrap f b i =>
    exact (valid_instructionAt m f b i).bind fun _ => .ok _
  | valueType f name =>
    refine Valid.bind ((valid_item _ _ f).bind fun fn => ?_) fun _ => .ok _
    split
    · exact .ok _
    · intro h heq
      cases heq

/-- No query returns a handle. -/
theorem answer_ne_handle [Demangler] (m : Source.Module) (q : Query) (h : Handle) :
    q.answer m ≠ .ok (.handle h) := by
  intro heq
  cases q with
  | info | types | globalCount | functionCount => cases heq
  | global | function | block | instruction | valueType | returnType | functionType | constantData
  | demangledName | noSignedWrap | noUnsignedWrap =>
    obtain ⟨_, -, heq⟩ := bind_eq_ok.mp heq
    cases heq

/-! ## Steps -/

theorem module_of_some {m : Source.Module} (hfind : l.find? h = some m) : l.module h = .ok m := by
  rw [module, hfind]

theorem module_of_none (hfind : l.find? h = none) : l.module h = .error (.invalidHandle h) := by
  rw [module, hfind]

theorem lookup_cons_of_ne {key : Handle} (hne : h ≠ key) (m : Source.Module)
    (entries : List (Handle × Source.Module)) :
    ((key, m) :: entries).lookup h = entries.lookup h := by
  rw [List.lookup_cons, beq_eq_false_iff_ne.mpr hne]

theorem find?_insert (l : Library) (m : Source.Module) (h : Handle) :
    (l.insert m).2.find? h = if h = ⟨l.next⟩ then some m else l.find? h := by
  unfold find? insert
  by_cases heq : h = ⟨l.next⟩
  · rw [if_pos heq, heq, List.lookup_cons_self]
  · rw [if_neg heq]
    exact lookup_cons_of_ne heq m l.modules

theorem find?_erase (l : Library) (h h' : Handle) :
    (l.erase h').find? h = if h = h' then none else l.find? h := by
  show (l.modules.filter (·.1 ≠ h')).lookup h = if h = h' then none else l.modules.lookup h
  induction l.modules with
  | nil => simp
  | cons entry entries ih =>
    obtain ⟨key, m⟩ := entry
    by_cases hkey : key = h'
    · subst hkey
      rw [List.filter_cons_of_neg (by simp), ih]
      by_cases heq : h = key
      · rw [if_pos heq, if_pos heq]
      · rw [if_neg heq, if_neg heq, lookup_cons_of_ne heq]
    · rw [List.filter_cons_of_pos (by simpa using hkey)]
      by_cases heq : h = key
      · subst heq
        rw [List.lookup_cons_self, List.lookup_cons_self, if_neg hkey]
      · rw [lookup_cons_of_ne heq, lookup_cons_of_ne heq, ih]

/-- What a call does to a library, and its answer. Only opening and closing change the library. -/
inductive Does [Demangler] (l : Library) : Call → Except Error Answer → Library → Prop where
  | opens {c : Call} {text : List UInt8} {m : Source.Module} (bytes : c.bytes? = some text)
      (isOpen : c.isOpen = true) (parsed : Source.Module.parse text = .ok m) :
      Does l c (.ok (.handle ⟨l.next⟩)) (l.insert m).2
  /-- A text that is no module, or a file that cannot be read. -/
  | fails {c : Call} {e : Error} (isOpen : c.isOpen = true) : Does l c (.error e) l
  | closes {h : Handle} {m : Source.Module} (found : l.find? h = some m) :
      Does l (.close h) (.ok .done) (l.erase h)
  | answers {h : Handle} {q : Query} {m : Source.Module} (found : l.find? h = some m) :
      Does l (.query h q) (q.answer m) l
  | refuses {c : Call} {h : Handle} (named : c.handle? = some h) (absent : l.find? h = none) :
      Does l c (.error (.invalidHandle h)) l
  | counts : Does l .openHandles (.ok (.count l.modules.length)) l
  | tells : Does l .version (.ok (.version Version.current)) l

theorem does_opened [Demangler] (hbytes : c.bytes? = some text) (hopen : c.isOpen = true) :
    Does l c (l.opened (l.openText text)).1 (l.opened (l.openText text)).2 := by
  unfold openText
  cases hparse : Source.Module.parse text with
  | ok m => exact .opens hbytes hopen hparse
  | error e => exact .fails hopen

theorem does_step [Demangler] (l : Library) (c : Call) : Does l c (l.step c).1 (l.step c).2 := by
  cases c with
  | openText text => exact does_opened rfl rfl
  | openPath path contents =>
    cases contents with
    | ok text => exact does_opened rfl rfl
    | error reason => exact .fails rfl
  | close h =>
    cases hfind : l.find? h with
    | some m =>
      have hstep : l.step (.close h) = (.ok .done, l.erase h) := by
        rw [step, close, module_of_some hfind]
        rfl
      rw [hstep]
      exact .closes hfind
    | none =>
      have hstep : l.step (.close h) = (.error (.invalidHandle h), l) := by
        rw [step, close, module_of_none hfind]
        rfl
      rw [hstep]
      exact .refuses rfl hfind
  | openHandles => exact .counts
  | version => exact .tells
  | query h q =>
    cases hfind : l.find? h with
    | some m =>
      have hstep : l.step (.query h q) = (q.answer m, l) := by
        rw [step, query, module_of_some hfind]
        rfl
      rw [hstep]
      exact .answers hfind
    | none =>
      have hstep : l.step (.query h q) = (.error (.invalidHandle h), l) := by
        rw [step, query, module_of_none hfind]
        rfl
      rw [hstep]
      exact .refuses rfl hfind

/-- A call that fails changes nothing. -/
theorem step_error [Demangler] {e : Error} (h : (l.step c).1 = .error e) : (l.step c).2 = l := by
  have hdoes := does_step l c
  revert h hdoes
  generalize (l.step c).1 = answer
  generalize (l.step c).2 = l'
  intro h hdoes
  cases hdoes with
  | opens | closes | counts | tells => cases h
  | fails | answers | refuses => rfl

/-! ## Runs -/

theorem opens_append (events : List Event) (e : Event) :
    opens (events ++ [e]) = opens events ++ if e.1.isOpen && e.2.isOk then [e.2] else [] := by
  unfold opens
  rw [List.filter_append, List.map_append]
  cases h : e.1.isOpen && e.2.isOk <;> simp [h]

/-- The library is what the events made of it: its handles were returned one after the other, and
those that are open lead to the modules they were opened with. -/
structure Agrees (events : List Event) (l : Library) : Prop where
  returned : opens events = (List.range (l.next - 1)).map fun n => .ok (.handle ⟨n + 1⟩)
  pos : 0 < l.next
  /-- The next handle is above all that were returned. -/
  above : ∀ h text, OpenWith events h text → h.number < l.next
  openWith : ∀ h m, l.find? h = some m ↔
    ∃ text, OpenWith events h text ∧ Source.Module.parse text = .ok m
  parsed : ∀ h text, OpenWith events h text → ∃ m, Source.Module.parse text = .ok m

theorem agrees_start : Agrees [] {} where
  returned := rfl
  pos := by decide
  above h text hopen := absurd hopen (not_openWith_nil h text)
  openWith h m := by
    constructor
    · intro hfind
      cases hfind
    · rintro ⟨text, hopen, -⟩
      exact absurd hopen (not_openWith_nil h text)
  parsed h text hopen := absurd hopen (not_openWith_nil h text)

/-- An event that opens and closes nothing leaves the same handles open. -/
theorem openWith_append_of_idle {events : List Event} (hreturn : ∀ h, e.2 ≠ .ok (.handle h))
    (hclose : ∀ h answer, e ≠ (.close h, .ok answer)) :
    OpenWith (events ++ [e]) h text ↔ OpenWith events h text := by
  rw [openWith_append]
  constructor
  · rintro (⟨hanswer, -⟩ | ⟨hopen, -⟩)
    · exact absurd hanswer (hreturn h)
    · exact hopen
  · exact fun hopen => .inr ⟨hopen, hclose h⟩

theorem Agrees.idle {events : List Event} (h : Agrees events l)
    (hopens : (e.1.isOpen && e.2.isOk) = false) (hreturn : ∀ h, e.2 ≠ .ok (.handle h))
    (hclose : ∀ h answer, e ≠ (.close h, .ok answer)) : Agrees (events ++ [e]) l where
  returned := by
    rw [opens_append, hopens, h.returned]
    simp
  pos := h.pos
  above h' text hopen := h.above h' text ((openWith_append_of_idle hreturn hclose).mp hopen)
  openWith h' m := by
    rw [h.openWith]
    simp only [openWith_append_of_idle hreturn hclose]
  parsed h' text hopen := h.parsed h' text ((openWith_append_of_idle hreturn hclose).mp hopen)

/-- Opening a module agrees with the history. -/
theorem Agrees.opened {events : List Event} {m : Source.Module} (h : Agrees events l)
    (hbytes : c.bytes? = some text) (hopen : c.isOpen = true)
    (hparse : Source.Module.parse text = .ok m) :
    Agrees (events ++ [(c, .ok (.handle ⟨l.next⟩))]) (l.insert m).2 := by
  have hafter (h' : Handle) (text' : List UInt8) :
      OpenWith (events ++ [(c, .ok (.handle ⟨l.next⟩))]) h' text' ↔
        (h' = ⟨l.next⟩ ∧ text' = text) ∨ OpenWith events h' text' := by
    rw [openWith_append]
    constructor
    · rintro (⟨hanswer, hbytes'⟩ | ⟨hbefore, -⟩)
      · cases hanswer
        exact .inl ⟨rfl, Option.some.inj (hbytes'.symm.trans hbytes)⟩
      · exact .inr hbefore
    · rintro (⟨rfl, rfl⟩ | hbefore)
      · exact .inl ⟨rfl, hbytes⟩
      · refine .inr ⟨hbefore, fun answer heq => ?_⟩
        cases heq
        cases hopen
  have hpos := h.pos
  constructor
  · -- one more handle was returned, and it is the next one
    have hnext : (l.insert m).2.next - 1 = l.next - 1 + 1 := by
      show l.next + 1 - 1 = _
      omega
    have hlast : l.next = l.next - 1 + 1 := by omega
    rw [opens_append, h.returned, hnext, List.range_succ, List.map_append, hopen]
    conv_lhs => rw [hlast]
    rfl
  · exact Nat.succ_pos _
  · intro h' text' hopen'
    show h'.number < l.next + 1
    rcases (hafter h' text').mp hopen' with ⟨rfl, -⟩ | hbefore
    · exact Nat.lt_succ_self _
    · exact Nat.lt_succ_of_lt (h.above h' text' hbefore)
  · intro h' m'
    simp only [hafter, find?_insert]
    by_cases hnew : h' = ⟨l.next⟩
    · -- the handle was not open before
      subst hnew
      have hfresh (text' : List UInt8) : ¬ OpenWith events ⟨l.next⟩ text' :=
        fun hbefore => Nat.lt_irrefl _ (h.above _ text' hbefore)
      simp [hfresh, hparse]
    · rw [if_neg hnew, h.openWith]
      simp [hnew]
  · intro h' text' hopen'
    rcases (hafter h' text').mp hopen' with ⟨-, rfl⟩ | hbefore
    · exact ⟨m, hparse⟩
    · exact h.parsed h' text' hbefore

/-- Closing a module agrees with the history. -/
theorem Agrees.closed {events : List Event} (h : Agrees events l) (h' : Handle) :
    Agrees (events ++ [(.close h', .ok .done)]) (l.erase h') := by
  have hafter (k : Handle) (text : List UInt8) :
      OpenWith (events ++ [(.close h', .ok .done)]) k text ↔ OpenWith events k text ∧ k ≠ h' := by
    rw [openWith_append]
    constructor
    · rintro (⟨hanswer, -⟩ | ⟨hbefore, hclose⟩)
      · cases hanswer
      · refine ⟨hbefore, ?_⟩
        rintro rfl
        exact hclose .done rfl
    · rintro ⟨hbefore, hne⟩
      refine .inr ⟨hbefore, fun answer heq => ?_⟩
      cases heq
      exact hne rfl
  constructor
  · rw [opens_append, h.returned]
    simp [Call.isOpen, erase]
  · exact h.pos
  · exact fun k text hopen => h.above k text ((hafter k text).mp hopen).1
  · intro k m
    simp only [hafter, find?_erase]
    by_cases heq : k = h'
    · simp [heq]
    · rw [if_neg heq, h.openWith]
      simp [heq]
  · exact fun k text hopen => h.parsed k text ((hafter k text).mp hopen).1

/-- A call keeps the library what the events made of it. -/
theorem Agrees.step [Demangler] {events : List Event} (h : Agrees events l) (c : Call) :
    Agrees (events ++ [(c, (l.step c).1)]) (l.step c).2 := by
  have hdoes := does_step l c
  revert hdoes
  generalize (l.step c).1 = answer
  generalize (l.step c).2 = l'
  intro hdoes
  cases hdoes with
  | opens hbytes hopen hparse => exact h.opened hbytes hopen hparse
  | closes => exact h.closed _
  | fails => exact h.idle (by simp [Except.isOk, Except.toBool]) (by simp) (by simp)
  | answers => exact h.idle (by simp [Call.isOpen]) (answer_ne_handle _ _) (by simp)
  | refuses => exact h.idle (by simp [Except.isOk, Except.toBool]) (by simp) (by simp)
  | counts => exact h.idle (by simp [Call.isOpen]) (by simp) (by simp)
  | tells => exact h.idle (by simp [Call.isOpen]) (by simp) (by simp)

/-- The events of a run. -/
def events [Demangler] (l : Library) (calls : List Call) : List Event := calls.zip (l.run calls).1

theorem run_cons [Demangler] (l : Library) (c : Call) (calls : List Call) :
    l.run (c :: calls) =
      ((l.step c).1 :: ((l.step c).2.run calls).1, ((l.step c).2.run calls).2) := rfl

theorem run_snd_append [Demangler] (l : Library) (calls later : List Call) :
    (l.run (calls ++ later)).2 = ((l.run calls).2.run later).2 := by
  induction calls generalizing l with
  | nil => rfl
  | cons c calls ih => rw [List.cons_append, run_cons, run_cons, ih]

theorem events_cons [Demangler] (l : Library) (c : Call) (calls : List Call) :
    l.events (c :: calls) = (c, (l.step c).1) :: (l.step c).2.events calls := rfl

/-- Every call has an answer. -/
theorem map_fst_events [Demangler] (l : Library) (calls : List Call) :
    (l.events calls).map Prod.fst = calls := by
  induction calls generalizing l with
  | nil => rfl
  | cons c calls ih => rw [events_cons, List.map_cons, ih]

/-- An event is a step of the library that the calls before it left. -/
theorem eq_of_events [Demangler] {calls : List Call} {later : List Event}
    {answer : Except Error Answer} (h : l.events calls = past ++ (c, answer) :: later) :
    past = l.events (past.map Prod.fst) ∧
      answer = ((l.run (past.map Prod.fst)).2.step c).1 := by
  induction past generalizing l calls with
  | nil =>
    cases calls with
    | nil => cases h
    | cons d calls =>
      rw [events_cons] at h
      cases h
      exact ⟨rfl, rfl⟩
  | cons e past ih =>
    cases calls with
    | nil => cases h
    | cons d calls =>
      rw [events_cons, List.cons_append] at h
      obtain ⟨rfl, hrest⟩ := List.cons_eq_cons.mp h
      obtain ⟨hpast, hanswer⟩ := ih hrest
      exact ⟨congrArg ((d, (l.step d).1) :: ·) hpast, hanswer⟩

/-- **Run lemma**: calls keep a library what the events made of it. -/
theorem Agrees.run [Demangler] (h : Agrees past l) (calls : List Call) :
    Agrees (past ++ l.events calls) (l.run calls).2 := by
  induction calls generalizing past l with
  | nil =>
    rw [events, List.zip_nil_left, List.append_nil]
    exact h
  | cons c calls ih =>
    rw [events_cons, run_cons, ← List.singleton_append, ← List.append_assoc]
    exact ih (h.step c)

theorem agrees_run [Demangler] (calls : List Call) : Agrees (events {} calls) (run {} calls).2 :=
  agrees_start.run calls

/-- A call that names a handle is refused where the handle is not open, and only there. -/
theorem Agrees.refused_iff [Demangler] (hl : Agrees past l) (hc : c.handle? = some h) :
    ((∃ text, OpenWith past h text) → Valid (l.step c).1) ∧
      ((¬ ∃ text, OpenWith past h text) → (l.step c).1 = .error (.invalidHandle h)) := by
  have hfind : (∃ text, OpenWith past h text) ↔ ∃ m, l.find? h = some m := by
    constructor
    · rintro ⟨text, hopen⟩
      obtain ⟨m, hm⟩ := hl.parsed h text hopen
      exact ⟨m, (hl.openWith h m).mpr ⟨text, hopen, hm⟩⟩
    · rintro ⟨m, hm⟩
      obtain ⟨text, hopen, -⟩ := (hl.openWith h m).mp hm
      exact ⟨text, hopen⟩
  rw [hfind]
  have hdoes := does_step l c
  revert hdoes
  generalize (l.step c).1 = answer
  generalize (l.step c).2 = l'
  intro hdoes
  cases hdoes with
  | opens _ hopen | fails hopen => cases c <;> cases hopen <;> cases hc
  | closes found =>
    cases hc
    exact ⟨fun _ => .ok _, fun hnone => absurd ⟨_, found⟩ hnone⟩
  | answers found =>
    cases hc
    exact ⟨fun _ => valid_answer _ _, fun hnone => absurd ⟨_, found⟩ hnone⟩
  | refuses named absent =>
    obtain rfl := Option.some.inj (named.symm.trans hc)
    refine ⟨?_, fun _ => rfl⟩
    rintro ⟨m, hm⟩
    rw [absent] at hm
    cases hm
  | counts | tells => cases hc

/-- The answer to a query is told by the bytes that its handle was opened with. -/
theorem Agrees.answered [Demangler] (hl : Agrees past l) (q : Query)
    (hopen : OpenWith past h text) :
    ∃ m, Source.Module.parse text = .ok m ∧ (l.step (.query h q)).1 = q.answer m := by
  obtain ⟨m, hm⟩ := hl.parsed h text hopen
  have hfind := (hl.openWith h m).mpr ⟨text, hopen, hm⟩
  refine ⟨m, hm, ?_⟩
  show l.query h q = q.answer m
  rw [query, module_of_some hfind]
  rfl

/-- **Handles are fresh keys.** In every run of a library that starts empty, the handles returned
are one, two, three and so on; a call that names a handle is refused exactly if the handle is not
open; the answer to a query follows from the bytes that were opened; and a call that fails leaves
the library as it was. -/
theorem handles_are_fresh_keys [Demangler] (calls : List Call) :
    (events {} calls).map Prod.fst = calls ∧
    (∀ (n : Nat) (answer : Except Error Answer), (opens (events {} calls))[n]? = some answer →
      answer = .ok (.handle ⟨n + 1⟩)) ∧
    ∀ (past later : List Event) (c : Call) (answer : Except Error Answer),
      events {} calls = past ++ (c, answer) :: later →
      (∀ h, c.handle? = some h →
        ((∃ text, OpenWith past h text) → ∀ h', answer ≠ .error (.invalidHandle h')) ∧
        ((¬ ∃ text, OpenWith past h text) → answer = .error (.invalidHandle h))) ∧
      (∀ h q text, c = .query h q → OpenWith past h text →
        ∃ m, Source.Module.parse text = .ok m ∧ answer = q.answer m) ∧
      ∀ e, answer = .error e →
        (run {} (past.map Prod.fst ++ [c])).2 = (run {} (past.map Prod.fst)).2 := by
  refine ⟨map_fst_events {} calls, ?_, ?_⟩
  · intro n answer hn
    rw [(agrees_run calls).returned, List.getElem?_map] at hn
    obtain ⟨k, hk, rfl⟩ := Option.map_eq_some_iff.mp hn
    obtain ⟨hlt, rfl⟩ := List.getElem?_eq_some_iff.mp hk
    rw [List.getElem_range]
  · intro past later c answer hevents
    obtain ⟨hpast, rfl⟩ := eq_of_events hevents
    have hagrees := agrees_run (past.map Prod.fst)
    rw [← hpast] at hagrees
    refine ⟨fun h hc => hagrees.refused_iff hc, ?_, fun e herror => ?_⟩
    · rintro h q text rfl hopen
      exact hagrees.answered q hopen
    · rw [run_snd_append]
      exact step_error herror

/-- A module is opened, closed and opened again, and the first handle is used once more. -/
def reopening : List Call :=
  [.openText [], .close ⟨1⟩, .openPath "absent" (.error noSuchFile), .openText [],
    .query ⟨2⟩ .functionCount, .query ⟨1⟩ .functionCount]

/-- The first handle is not given out again, and stays refused. -/
theorem handles_are_fresh_keys_reopening :
    opens (events {} reopening) = [.ok (.handle ⟨1⟩), .ok (.handle ⟨2⟩)] ∧
      ∃ past, events {} reopening
          = past ++ [(.query ⟨1⟩ .functionCount, .error (.invalidHandle ⟨1⟩))] ∧
        (∀ text, ¬ OpenWith past ⟨1⟩ text) ∧ OpenWith past ⟨2⟩ [] := by
  have hevents : events {} reopening
      = [(.openText [], .ok (.handle ⟨1⟩)), (.close ⟨1⟩, .ok .done),
          (.openPath "absent" (.error noSuchFile), .error (.unreadable "absent" noSuchFile)),
          (.openText [], .ok (.handle ⟨2⟩)), (.query ⟨2⟩ .functionCount, .ok (.count 0))]
        ++ [(.query ⟨1⟩ .functionCount, .error (.invalidHandle ⟨1⟩))] := rfl
  refine ⟨by rw [hevents]; rfl, _, hevents, fun text hopen => ?_, ?_⟩
  · -- were the handle open, the last call would not be refused
    have hcall := ((handles_are_fresh_keys reopening).2.2 _ [] _ _ hevents).1 ⟨1⟩ rfl
    exact hcall.1 ⟨text, hopen⟩ ⟨1⟩ rfl
  · exact ⟨[(.openText [], .ok (.handle ⟨1⟩)), (.close ⟨1⟩, .ok .done),
        (.openPath "absent" (.error noSuchFile), .error (.unreadable "absent" noSuchFile))],
      .openText [], [(.query ⟨2⟩ .functionCount, .ok (.count 0))], rfl, rfl, by simp⟩

end SafeIR.Library
