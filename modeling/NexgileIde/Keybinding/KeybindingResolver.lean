import NexgileIde.ContextKey.ContextKeyConstants
import NexgileIde.ContextKey.ContextKeyImplies

/-!
# The keybinding resolver

Stores mappings from keybindings to commands and from commands to keybindings. Given a sequence
of chords, it resolves which keybinding it matches. Every rule is an object of its own; its
place in the list of all rules tells it apart.
-/

namespace NexgileIde.Keybinding

open Text ContextKey ContextKeyExpression

variable {L A : Type}

structure ResolvedKeybindingItem (L A : Type) where
  chords : List Str
  bubble : Bool
  command : Option Str
  commandArgs : A
  when : Option (ContextKeyExpression L)
  isDefault : Bool

abbrev Rule (L A : Type) := ResolvedKeybindingItem L A × ℕ

namespace ResolvedKeybindingItem

/-- `-`, before a command that is to be removed -/
def minus : CodeUnit := 45

/-- The command of a rule that removes it. -/
def removedCommand (item : ResolvedKeybindingItem L A) : Option Str :=
  match item.command with
  | some (c :: command) => if c = minus then some command else none
  | _ => none

/-- `item.command`, when it is there and not empty -/
def boundCommand (item : ResolvedKeybindingItem L A) : Option Str :=
  match item.command with
  | some (c :: command) => some (c :: command)
  | _ => none

end ResolvedKeybindingItem

inductive ResolutionResult (A : Type)
  | noMatchingKb
  | moreChordsNeeded
  | kbFound (commandId : Option Str) (commandArgs : A) (isBubble : Bool)
  deriving DecidableEq

/-- The state of the resolver. The two maps are keyed by the first chord's keypress and by the
command. -/
structure KeybindingResolver (L A : Type) where
  keybindings : List (Rule L A)
  map : Str → Option (List (Rule L A))
  lookupMap : Str → Option (List (Rule L A))

namespace KeybindingResolver

section Rules

variable (F : LeafFamily L)

/-- Returns true if it is provable `a` implies `b`. -/
def whenIsEntirelyIncluded (a b : Option (ContextKeyExpression L)) : Bool :=
  match b with
  | none | some (.constant true) => true
  | some b =>
    match a with
    | none | some (.constant true) => false
    | some a => implies F a b

variable (constantOf : L → Option Bool)

/-- `when?.substituteConstants()` -/
def substituteWhen (when : Option (ContextKeyExpression L)) :
    Option (Option (ContextKeyExpression L)) :=
  match when with
  | none => some none
  | some e => substituteConstants F constantOf e

def isTargetedForRemoval (defaultKb : ResolvedKeybindingItem L A) (keypress : List Str)
    (when : Option (ContextKeyExpression L)) : Option Bool :=
  if keypress.isPrefixOf defaultKb.chords then
    -- `true` means always, as does `undefined`
    match when with
    | none | some (.constant true) => some true
    | some when =>
      match defaultKb.when with
      | none => some false
      | some defaultWhen => do
        let defaultWhen ← substituteConstants F constantOf defaultWhen
        let removalWhen ← substituteConstants F constantOf when
        some (whenIsEntirelyIncluded F defaultWhen removalWhen)
  else some false

/-- The first of the removals that targets the rule decides. -/
def isRemoved (rule : ResolvedKeybindingItem L A) : List (Rule L A) → Option Bool
  | [] => some false
  | commandRemoval :: commandRemovals => do
    if ← isTargetedForRemoval F constantOf rule commandRemoval.1.chords commandRemoval.1.when then
      some true
    else isRemoved rule commandRemovals

/-- The rules that remove a command. -/
def removals (rules : List (Rule L A)) (command : Str) : List (Rule L A) :=
  rules.filter fun rule => rule.1.removedCommand = some command

/-- The second pass keeps only non-removed keybindings. -/
def keepNonRemoved (rules : List (Rule L A)) : List (Rule L A) → Option (List (Rule L A))
  | [] => some []
  | rule :: rest => do
    let result ← keepNonRemoved rules rest
    match rule.1.boundCommand with
    | none => some (rule :: result)
    | some command =>
      if rule.1.removedCommand.isSome then some result
      else if rule.1.isDefault then do
        if ← isRemoved F constantOf rule.1 (removals rules command) then some result
        else some (rule :: result)
      else some (rule :: result)

/-- Looks for rules containing "-commandId" and removes them. -/
def handleRemovals (rules : List (Rule L A)) : Option (List (Rule L A)) :=
  if rules.any fun rule => rule.1.removedCommand.isSome then
    keepNonRemoved F constantOf rules rules
  else some rules

end Rules

def addToLookupMap (lookupMap : Str → Option (List (Rule L A))) (item : Rule L A) :
    Str → Option (List (Rule L A)) :=
  match item.1.boundCommand with
  | none => lookupMap
  | some command =>
    Function.update lookupMap command (some ((lookupMap command).getD [] ++ [item]))

def removeFromLookupMap (lookupMap : Str → Option (List (Rule L A))) (item : Rule L A) :
    Str → Option (List (Rule L A)) :=
  match item.1.boundCommand with
  | none => lookupMap
  | some command =>
    match lookupMap command with
    | none => lookupMap
    | some arr => Function.update lookupMap command (some (arr.eraseP (·.2 = item.2)))

/-- Whether two rules with one first chord have the shorter one as a prefix of the longer. -/
def isShorterKbPrefix : List Str → List Str → Bool
  | a :: as, b :: bs => a = b && isShorterKbPrefix as bs
  | _, _ => true

/-- `item` completely overwrites `conflict` -/
def overwrites (F : LeafFamily L) (item conflict : Rule L A) : Bool :=
  conflict.1.command ≠ item.1.command &&
    (isShorterKbPrefix conflict.1.chords.tail item.1.chords.tail &&
      whenIsEntirelyIncluded F conflict.1.when item.1.when)

def addKeyPress (F : LeafFamily L) (r : KeybindingResolver L A) (keypress : Str)
    (item : Rule L A) : KeybindingResolver L A :=
  match r.map keypress with
  | none =>
    { r with
      map := Function.update r.map keypress (some [item])
      lookupMap := addToLookupMap r.lookupMap item }
  | some conflicts =>
    let lookupMap := conflicts.reverse.foldl (fun lookupMap conflict =>
      if overwrites F item conflict then removeFromLookupMap lookupMap conflict else lookupMap)
      r.lookupMap
    { r with
      map := Function.update r.map keypress (some (conflicts ++ [item]))
      lookupMap := addToLookupMap lookupMap item }

/-- One round of the constructor's loop: rules without chords are unbound, and rules whose
condition is false are left out. -/
def addKeybinding (F : LeafFamily L) (constantOf : L → Option Bool)
    (r : KeybindingResolver L A) (k : Rule L A) : Option (KeybindingResolver L A) :=
  match k.1.chords with
  | [] => some r
  | chord :: _ => do
    match ← substituteWhen F constantOf k.1.when with
    | some (.constant false) => some r
    | _ => some (addKeyPress F r chord k)

/-- The constructor -/
def new (F : LeafFamily L) (constantOf : L → Option Bool)
    (defaultKeybindings overrides : List (ResolvedKeybindingItem L A)) :
    Option (KeybindingResolver L A) := do
  let keybindings ← handleRemovals F constantOf (defaultKeybindings ++ overrides).zipIdx
  keybindings.foldlM (addKeybinding F constantOf) ⟨keybindings, fun _ => none, fun _ => none⟩

def lookupKeybindings (r : KeybindingResolver L A) (commandId : Str) : List (Rule L A) :=
  ((r.lookupMap commandId).getD []).reverse

def contextMatchesRules (context : L → Bool) (rules : Option (ContextKeyExpression L)) : Bool :=
  match rules with
  | none => true
  | some e => evaluate context e

def findCommand (context : L → Bool) (rules : List (Rule L A)) : Option (Rule L A) :=
  rules.reverse.find? fun k => contextMatchesRules context k.1.when

/-- The rules for the pressed chords; none when there are no bindings with such 0-th chord. -/
def fetch (r : KeybindingResolver L A) (pressedChords : List Str) : Option (List (Rule L A)) :=
  match pressedChords with
  | [] => none
  | chord :: rest =>
    (r.map chord).map fun kbCandidates =>
      if pressedChords.length < 2 then kbCandidates
      else kbCandidates.filter fun candidate =>
        pressedChords.length ≤ candidate.1.chords.length &&
          rest.isPrefixOf candidate.1.chords.tail

/-- Looks up a keybinding trigged as a result of pressing a sequence of chords. -/
def resolve (r : KeybindingResolver L A) (context : L → Bool) (currentChords : List Str)
    (keypress : Str) : ResolutionResult A :=
  let pressedChords := currentChords ++ [keypress]
  match r.fetch pressedChords with
  | none => .noMatchingKb
  | some lookupMap =>
    match findCommand context lookupMap with
    | none => .noMatchingKb
    | some result =>
      if pressedChords.length < result.1.chords.length then .moreChordsNeeded
      else .kbFound result.1.command result.1.commandArgs result.1.bubble

/-- The calls of `resolve` for chords pressed one by one: a keybinding that was found, or that
was not, ends the sequence. -/
def presses (r : KeybindingResolver L A) (context : L → Bool) :
    List Str → List Str → List (List Str × Str)
  | _, [] => []
  | currentChords, keypress :: keys =>
    (currentChords, keypress) ::
      match r.resolve context currentChords keypress with
      | .moreChordsNeeded => presses r context (currentChords ++ [keypress]) keys
      | _ => presses r context [] keys

end KeybindingResolver

end NexgileIde.Keybinding
