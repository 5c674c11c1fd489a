import ClassicAsp.Proofs.Delivery

/-! What is found in a sequence of tokens. A token warns by itself, or it creates an object that a
later token names, with no more than punctuation between the two. All that warns is reported, and a
creation is reported unless its own token has been taken for the name of what an earlier one
creates. -/
namespace ClassicAsp

inductive Token.Warns : Token → Text → Prop where
  | stop : Warns (.statement .stop) "Stop should not be used in production code".toList
  | execute : Warns (.statement .execute) "Execute is not recommended".toList
  | executeGlobal : Warns (.statement .executeGlobal) "ExecuteGlobal is not recommended".toList
  | eval {f : Word functionNames} (h : f.spelling = "Eval".toList) :
      Warns (.function f) "Eval is not recommended".toList

inductive Token.Calls : Token → Text → Prop where
  | createObject {f : Word functionNames} (h : f.spelling = "CreateObject".toList) :
      Calls (.function f) "CreateObject".toList
  | getObject {f : Word functionNames} (h : f.spelling = "GetObject".toList) :
      Calls (.function f) "GetObject".toList
  | server {name : Text} (h : Text.sameWord "Server.CreateObject".toList name = true) :
      Calls (.identifier name) "Server.CreateObject".toList

/-- A token that creates what a second token names, with the message. -/
inductive Token.Creates : Token → Token → Text → Prop where
  | object {t : Token} {call s : Text} (h : t.Calls call) :
      Creates t (.string s) (call ++ " creates object \"".toList ++ s ++ ['"'])
  | named {t : Token} {call name : Text} (h : t.Calls call) :
      Creates t (.identifier name) (call ++ " creates object named by ".toList ++ name)
  | class_ {name : Text} : Creates (.statement .new) (.identifier name)
      ("New creates an instance of class ".toList ++ name)

def ArePunctuation (ts : List (Spelled × ℕ)) : Prop := ∀ p ∈ ts, ∃ c, p.1.token = .punctuation c

theorem Concern.ofToken?_function (f : Word functionNames) : ofToken? (.function f) =
    if f.spelling = "Eval".toList then some (execution f.spelling) else none := rfl

theorem Creation.ofToken?_function (f : Word functionNames) : ofToken? (.function f) =
    if calls.contains f.spelling then some (call f.spelling) else none := rfl

theorem Creation.ofToken?_identifier (name : Text) : ofToken? (.identifier name) =
    ((Word.find? methods name).map Word.spelling).map call := by
  rw [Option.map_map]
  rfl

theorem Creation.mem_calls {s : Text} :
    calls.contains s = true ↔ s = "CreateObject".toList ∨ s = "GetObject".toList := by
  rw [List.contains_iff_mem]
  simp only [calls, texts, List.map_cons, List.map_nil, List.mem_cons, List.not_mem_nil, or_false]

namespace Token

variable {t n : Token} {m call : Text}

theorem warns_iff : t.Warns m ↔ ∃ k, Concern.ofToken? t = some k ∧ k.message = m := by
  constructor
  · intro h
    cases h with
    | stop | execute | executeGlobal => exact ⟨_, rfl, rfl⟩
    | @eval f h =>
      refine ⟨.execution f.spelling, ?_, ?_⟩
      · rw [Concern.ofToken?_function, if_pos h]
      · rw [h]
        rfl
  · rintro ⟨k, h, rfl⟩
    cases t with
    | statement w =>
      cases w with
      | stop =>
        cases h
        exact .stop
      | execute =>
        cases h
        exact .execute
      | executeGlobal =>
        cases h
        exact .executeGlobal
      | _ => cases h
    | function f =>
      rw [Concern.ofToken?_function] at h
      split_ifs at h with hf
      obtain rfl := Option.some.inj h
      rw [hf]
      exact .eval hf
    | _ => cases h

theorem calls_iff : t.Calls call ↔ Creation.ofToken? t = some (.call call) := by
  have hfind (name : Text) : (Word.find? Creation.methods name).map Word.spelling =
      if Text.sameWord "Server.CreateObject".toList name then some "Server.CreateObject".toList
        else none := by
    rw [Word.map_spelling_find?]
    change List.find? _ ["Server.CreateObject".toList] = _
    rw [List.find?_singleton]
  constructor
  · intro h
    cases h with
    | @createObject f h =>
      rw [Creation.ofToken?_function, h, if_pos (Creation.mem_calls.2 (.inl rfl))]
    | @getObject f h =>
      rw [Creation.ofToken?_function, h, if_pos (Creation.mem_calls.2 (.inr rfl))]
    | @server name h =>
      rw [Creation.ofToken?_identifier, hfind, if_pos h]
      rfl
  · intro h
    cases t with
    | statement w => cases w <;> cases h
    | function f =>
      rw [Creation.ofToken?_function] at h
      split_ifs at h with hf
      obtain rfl : f.spelling = call := Creation.call.inj (Option.some.inj h)
      rcases Creation.mem_calls.1 hf with hs | hs
      · rw [hs]
        exact .createObject hs
      · rw [hs]
        exact .getObject hs
    | identifier name =>
      rw [Creation.ofToken?_identifier, hfind] at h
      split_ifs at h with hs
      · obtain rfl : "Server.CreateObject".toList = call := Creation.call.inj (Option.some.inj h)
        exact .server hs
      · cases h
    | _ => cases h

theorem creates_class_iff : Creation.ofToken? t = some .new ↔ t = .statement .new := by
  constructor
  · intro h
    cases t with
    | statement w =>
      cases w with
      | new => rfl
      | _ => cases h
    | function f =>
      rw [Creation.ofToken?_function] at h
      split_ifs at h
      cases h
    | identifier name =>
      rw [Creation.ofToken?_identifier] at h
      obtain ⟨_, _, hc⟩ := Option.map_eq_some_iff.1 h
      cases hc
    | _ => cases h
  · rintro rfl
    rfl

theorem creates_iff : t.Creates n m ↔
    ∃ c k, Creation.ofToken? t = some c ∧ c.concern? n = some k ∧ k.message = m := by
  constructor
  · intro h
    cases h with
    | object h | named h => exact ⟨_, _, calls_iff.1 h, rfl, rfl⟩
    | class_ => exact ⟨_, _, rfl, rfl, rfl⟩
  · rintro ⟨c, k, hc, hk, rfl⟩
    cases c with
    | call call =>
      cases n with
      | string s =>
        cases hk
        exact .object (calls_iff.2 hc)
      | identifier name =>
        cases hk
        exact .named (calls_iff.2 hc)
      | _ => cases hk
    | new =>
      obtain rfl := creates_class_iff.1 hc
      cases n with
      | identifier name =>
        cases hk
        exact .class_
      | _ => cases hk

end Token

namespace Creation

@[simp]
theorem concern?_punctuation (c : Creation) (a : Char) : c.concern? (.punctuation a) = none := by
  cases c <;> rfl

/-- A token that raises a concern by itself names nothing, and creates nothing. -/
theorem concern?_of_raises (c : Creation) {t : Token} {k : Concern}
    (h : Concern.ofToken? t = some k) : c.concern? t = none := by
  cases t with
  | string s | identifier s => cases h
  | _ => cases c <;> rfl

theorem ofToken?_of_raises {t : Token} {k : Concern} (h : Concern.ofToken? t = some k) :
    ofToken? t = none := by
  rw [Option.eq_none_iff_forall_ne_some]
  intro c hc
  cases c with
  | new =>
    rw [Token.creates_class_iff.1 hc] at h
    cases h
  | call call =>
    cases Token.calls_iff.2 hc with
    | createObject hf | getObject hf =>
      rw [Concern.ofToken?_function, hf] at h
      cases h
    | server => cases h

theorem identifier_of_concern? {c d : Creation} {t : Token} {k : Concern}
    (hc : c.concern? t = some k) (hd : ofToken? t = some d) : ∃ name, t = .identifier name := by
  cases t with
  | identifier name => exact ⟨name, rfl⟩
  | string s => cases hd
  | _ => cases c <;> cases hc

end Creation

namespace Watch

/-- What one token does to a watch, and what is found there. -/
inductive Step : Watch → Token → ℕ → Watch → Option Finding → Prop where
  | waits {c begun a line} : Step (some (c, begun)) (.punctuation a) line (some (c, begun)) none
  | names {c begun t line k} (h : c.concern? t = some k) :
      Step (some (c, begun)) t line none (some ⟨begun, k⟩)
  | raises {w t line k} (h : Concern.ofToken? t = some k) : Step w t line none (some ⟨line, k⟩)
  | begins {w t line c} (h : Creation.ofToken? t = some c) : Step w t line (some (c, line)) none
  | passes {w t line} : Step w t line none none

variable {w : Watch} {t : Token} {c : Creation} {k : Concern} {line begun : ℕ}

/-- A token that names nothing is looked at for itself. -/
theorem check_eq_start (h : ∀ p ∈ w, p.1.concern? t = none) (ht : ∀ a, t ≠ .punctuation a) :
    w.check t line = start t line := by
  cases w with
  | none => rfl
  | some p => rw [check_awaited _ _ ht, h p rfl, Option.map_none, Option.getD_none]

theorem step_start (w : Watch) (t : Token) (line : ℕ) :
    Step w t line (start t line).1 (start t line).2 := by
  unfold start
  cases hk : Concern.ofToken? t with
  | some k =>
    rw [Creation.ofToken?_of_raises hk]
    exact .raises hk
  | none =>
    cases hc : Creation.ofToken? t with
    | some c => exact .begins hc
    | none => exact .passes

theorem step_check (w : Watch) (t : Token) (line : ℕ) :
    Step w t line (w.check t line).1 (w.check t line).2 := by
  cases w with
  | none => exact step_start none t line
  | some p =>
    obtain ⟨c, begun⟩ := p
    by_cases ht : ∃ a, t = .punctuation a
    · obtain ⟨a, rfl⟩ := ht
      exact .waits
    · have hne : ∀ a, t ≠ .punctuation a := fun a h => ht ⟨a, h⟩
      rw [check_awaited c begun hne]
      cases hk : c.concern? t with
      | some k => exact .names hk
      | none => exact step_start _ t line

theorem check_names (h : c.concern? t = some k) :
    check (some (c, begun)) t line = (none, some ⟨begun, k⟩) := by
  have ht : ∀ a, t ≠ .punctuation a := by
    rintro a rfl
    rw [c.concern?_punctuation] at h
    cases h
  rw [check_awaited _ _ ht, h]
  rfl

theorem check_raises (h : Concern.ofToken? t = some k) :
    w.check t line = (none, some ⟨line, k⟩) := by
  have ht : ∀ a, t ≠ .punctuation a := by
    rintro a rfl
    cases h
  rw [check_eq_start (fun p _ => p.1.concern?_of_raises h) ht, start, h,
    Creation.ofToken?_of_raises h]
  rfl

theorem check_begins (h : Creation.ofToken? t = some c) (hw : ∀ p ∈ w, p.1.concern? t = none) :
    w.check t line = (some (c, line), none) := by
  have ht : ∀ a, t ≠ .punctuation a := by
    rintro a rfl
    cases h
  have hk : Concern.ofToken? t = none := by
    rw [Option.eq_none_iff_forall_ne_some]
    intro k hk
    rw [Creation.ofToken?_of_raises hk] at h
    cases h
  rw [check_eq_start hw ht, start, h, hk]
  rfl

/-- What is awaited behind a sequence of tokens. -/
def after (w : Watch) (ts : List (Spelled × ℕ)) : Watch :=
  ts.foldl (fun w p => (w.check p.1.token p.2).1) w

@[simp] theorem findings_append (w : Watch) (ts us : List (Spelled × ℕ)) :
    w.findings (ts ++ us) = w.findings ts ++ (w.after ts).findings us := by
  induction ts generalizing w with
  | nil => rfl
  | cons p ts ih =>
    rw [List.cons_append, findings, findings, ih, List.append_assoc]
    rfl

/-- What is awaited was begun by a creation that nothing but punctuation has followed, so no finding
has come of it. -/
theorem awaited_of_after {ts : List (Spelled × ℕ)} (h : after none ts = some (c, begun)) :
    ∃ us t ps, ts = us ++ (t, begun) :: ps ∧ ArePunctuation ps ∧
      Creation.ofToken? t.token = some c ∧ findings none ts = findings none us := by
  induction ts using List.reverseRecOn with
  | nil => cases h
  | append_singleton ts p ih =>
    obtain ⟨t, line⟩ := p
    have hfound := findings_append none ts [(t, line)]
    rw [after, List.foldl_concat] at h
    have hstep := step_check (after none ts) t.token line
    rw [findings, findings, List.append_nil] at hfound
    change ((after none ts).check t.token line).1 = _ at h
    rw [h] at hstep
    generalize hw : after none ts = w at *
    generalize htoken : t.token = token at *
    generalize (w.check token line).2 = found at *
    cases hstep with
    | @waits _ _ a _ =>
      obtain ⟨us, u, ps, rfl, hps, hc, hus⟩ := ih rfl
      refine ⟨us, u, ps ++ [(t, line)], by simp, ?_, hc, ?_⟩
      · intro q hq
        rcases List.mem_append.1 hq with hq | hq
        · exact hps q hq
        · rw [List.mem_singleton.1 hq]
          exact ⟨a, htoken⟩
      · rw [hfound, hus]
        exact List.append_nil _
    | begins hc =>
      refine ⟨ts, t, [], rfl, by simp [ArePunctuation], htoken ▸ hc, ?_⟩
      rw [hfound]
      exact List.append_nil _

theorem findings_awaited {ps us : List (Spelled × ℕ)} {n : Spelled × ℕ} (hps : ArePunctuation ps)
    (h : c.concern? n.1.token = some k) :
    findings (some (c, begun)) (ps ++ n :: us) = ⟨begun, k⟩ :: findings none us := by
  induction ps with
  | nil =>
    rw [List.nil_append, findings, check_names h]
    rfl
  | cons p ps ih =>
    obtain ⟨a, ha⟩ := hps p (by simp)
    rw [List.cons_append, findings, ha]
    exact ih fun q hq => hps q (by simp [hq])

theorem findings_awaited_cases (c : Creation) (begun : ℕ) (ts : List (Spelled × ℕ)) :
    (∃ ps n us k, ts = ps ++ n :: us ∧ ArePunctuation ps ∧ c.concern? n.1.token = some k ∧
      findings (some (c, begun)) ts = ⟨begun, k⟩ :: findings none us) ∨
    findings (some (c, begun)) ts = findings none ts := by
  induction ts with
  | nil => exact .inr rfl
  | cons p ts ih =>
    obtain ⟨t, line⟩ := p
    by_cases ht : ∃ a, t.token = .punctuation a
    · obtain ⟨a, ha⟩ := ht
      have hwait : findings (some (c, begun)) ((t, line) :: ts) =
          findings (some (c, begun)) ts := by
        rw [findings, ha]
        rfl
      have hpass : findings none ((t, line) :: ts) = findings none ts := by
        rw [findings, ha]
        rfl
      rcases ih with ⟨ps, n, us, k, rfl, hps, hk, hfound⟩ | hfound
      · refine .inl ⟨(t, line) :: ps, n, us, k, rfl, ?_, hk, hwait.trans hfound⟩
        intro q hq
        rcases List.mem_cons.1 hq with rfl | hq
        · exact ⟨a, ha⟩
        · exact hps q hq
      · exact .inr ((hwait.trans hfound).trans hpass.symm)
    · cases hk : c.concern? t.token with
      | some k =>
        have hnamed := @findings_awaited c k begun [] ts (t, line) (by simp [ArePunctuation]) hk
        exact .inl ⟨[], (t, line), ts, k, rfl, by simp [ArePunctuation], hk, hnamed⟩
      | none =>
        right
        rw [findings, findings, check_eq_start (by simpa using hk) fun a h => ht ⟨a, h⟩]
        rfl

/-- The first token of a sequence is found, by itself or where it is named, or makes no
difference. -/
theorem findings_cases (t : Spelled) (line : ℕ) (ts : List (Spelled × ℕ)) :
    (∃ k, Concern.ofToken? t.token = some k ∧
      findings none ((t, line) :: ts) = ⟨line, k⟩ :: findings none ts) ∨
    (∃ c k ps n us, Creation.ofToken? t.token = some c ∧ ts = ps ++ n :: us ∧ ArePunctuation ps ∧
      c.concern? n.1.token = some k ∧
      findings none ((t, line) :: ts) = ⟨line, k⟩ :: findings none us) ∨
    findings none ((t, line) :: ts) = findings none ts := by
  have hstep := step_check none t.token line
  rw [findings]
  generalize check none t.token line = answer at *
  obtain ⟨w, found⟩ := answer
  cases hstep with
  | raises hk => exact .inl ⟨_, hk, rfl⟩
  | begins hc =>
    rcases findings_awaited_cases _ line ts with ⟨ps, n, us, k, hts, hps, hk, hfound⟩ | hfound
    · exact .inr (.inl ⟨_, k, ps, n, us, hc, hts, hps, hk, hfound⟩)
    · exact .inr (.inr hfound)
  | passes => exact .inr (.inr rfl)

end Watch

def Finding.entry (f : Finding) : ℕ × Text := (f.line, f.concern.message)

/-- What is reported of a sequence of tokens. -/
def reported (ts : List (Spelled × ℕ)) : List (ℕ × Text) :=
  (Watch.findings none ts).map Finding.entry

/-- Everything that warns is reported, and so is every creation, unless its name has been taken for
what an earlier token creates. -/
theorem reported_complete (us vs : List (Spelled × ℕ)) (t : Spelled) (line : ℕ) :
    (∀ m, t.token.Warns m →
      reported (us ++ (t, line) :: vs) = reported us ++ (line, m) :: reported vs) ∧
    ∀ ps n m, ArePunctuation ps → t.token.Creates n.1.token m →
      reported (us ++ (t, line) :: (ps ++ n :: vs)) = reported us ++ (line, m) :: reported vs ∨
      ∃ ws u begun qs name k, us = ws ++ (u, begun) :: qs ∧ ArePunctuation qs ∧
        t.token = .identifier name ∧ u.token.Creates (.identifier name) k ∧
        reported (us ++ (t, line) :: (ps ++ n :: vs)) =
          reported ws ++ (begun, k) :: reported (ps ++ n :: vs) := by
  constructor
  · intro m hm
    obtain ⟨k, hk, rfl⟩ := Token.warns_iff.1 hm
    rw [reported, Watch.findings_append, Watch.findings, Watch.check_raises hk, List.map_append]
    rfl
  · intro ps n m hps hm
    obtain ⟨c, k, hc, hk, rfl⟩ := Token.creates_iff.1 hm
    have hfree : (∀ p ∈ Watch.after none us, p.1.concern? t.token = none) →
        reported (us ++ (t, line) :: (ps ++ n :: vs)) =
          reported us ++ (line, k.message) :: reported vs := by
      intro hw
      rw [reported, Watch.findings_append, Watch.findings, Watch.check_begins hc hw,
        Watch.findings_awaited hps hk, List.map_append]
      rfl
    cases hw : Watch.after none us with
    | none =>
      rw [hw] at hfree
      exact .inl (hfree fun p hp => by cases hp)
    | some p =>
      obtain ⟨d, begun⟩ := p
      rw [hw] at hfree
      cases hd : d.concern? t.token with
      | none => exact .inl (hfree fun p hp => by cases hp; exact hd)
      | some l =>
        -- what is awaited takes the token for its name, so that the token begins nothing itself
        obtain ⟨ws, u, qs, hus, hqs, hu, hfound⟩ := Watch.awaited_of_after hw
        obtain ⟨name, hname⟩ := Creation.identifier_of_concern? hd hc
        refine .inr ⟨ws, u, begun, qs, name, l.message, hus, hqs, hname, ?_, ?_⟩
        · rw [← hname]
          exact Token.creates_iff.2 ⟨d, l, hu, hd, rfl⟩
        · rw [reported, Watch.findings_append, hw, hfound, Watch.findings, Watch.check_names hd,
            List.map_append]
          rfl

/-- A call whose first argument is left out, and a stop behind it. -/
theorem reported_complete_getObject :
    let set : Spelled × ℕ := (⟨.statement .set, "Set".toList⟩, 1)
    let call : Spelled := ⟨.function ⟨"GetObject".toList, by decide⟩, "getobject".toList⟩
    let marks : List (Spelled × ℕ) :=
      [(⟨.punctuation '(', ['(']⟩, 2), (⟨.punctuation ',', [',']⟩, 2)]
    let name : Spelled × ℕ := (⟨.string "Word".toList, "Word".toList⟩, 3)
    let stop : Spelled := ⟨.statement .stop, "Stop".toList⟩
    let message := "GetObject creates object \"Word\"".toList
    let warning := "Stop should not be used in production code".toList
    ArePunctuation marks ∧ call.token.Creates name.1.token message ∧ stop.token.Warns warning ∧
      reported ([set] ++ (call, 2) :: (marks ++ name :: [(stop, 4)])) =
        [(2, message), (4, warning)] := by
  intro set call marks name stop message warning
  have hmarks : ArePunctuation marks := by
    intro p hp
    rcases List.mem_cons.1 hp with rfl | hp
    · exact ⟨'(', rfl⟩
    · rw [List.mem_singleton.1 hp]
      exact ⟨',', rfl⟩
  have hcreates : call.token.Creates name.1.token message := .object (.getObject rfl)
  have hstop := (reported_complete [] [] stop 4).1 warning .stop
  refine ⟨hmarks, hcreates, .stop, ?_⟩
  rcases (reported_complete [set] [(stop, 4)] call 2).2 marks name message hmarks hcreates with
    h | ⟨_, _, _, _, _, _, _, _, hname, _⟩
  · rw [h]
    exact congrArg ((2, message) :: ·) hstop
  · cases hname

/-- A creation in the place of the name of what another one creates is not reported. -/
theorem not_complete_nested :
    ¬ ∀ (us ps vs : List (Spelled × ℕ)) (t : Spelled) (line : ℕ) (n : Spelled × ℕ) (m : Text),
      ArePunctuation ps → t.token.Creates n.1.token m →
        (line, m) ∈ reported (us ++ (t, line) :: (ps ++ n :: vs)) := by
  intro h
  let opening : Spelled × ℕ := (⟨.punctuation '(', ['(']⟩, 1)
  let closing : Spelled × ℕ := (⟨.punctuation ')', [')']⟩, 1)
  let outer : Spelled × ℕ :=
    (⟨.function ⟨"CreateObject".toList, by decide⟩, "CreateObject".toList⟩, 1)
  let inner : Spelled := ⟨.identifier "Server.CreateObject".toList, "Server.CreateObject".toList⟩
  let name : Spelled × ℕ := (⟨.string ['X'], ['X']⟩, 1)
  have hopening : ArePunctuation [opening] := by
    intro p hp
    rw [List.mem_singleton.1 hp]
    exact ⟨'(', rfl⟩
  have hin := h [outer, opening] [opening] [closing, closing] inner 1 name
    "Server.CreateObject creates object \"X\"".toList hopening (.object (.server (by decide)))
  have hreported : reported ([outer, opening] ++ (inner, 1) :: ([opening] ++
      name :: [closing, closing])) =
        [(1, "CreateObject creates object named by Server.CreateObject".toList)] := by
    decide +kernel
  rw [hreported, List.mem_singleton] at hin
  exact absurd hin (by decide)

end ClassicAsp
