namespace OrPattern

/-- How a pattern is to be compiled. No option changes what a pattern means. -/
structure Options where
  /-- Whether or-patterns may dispatch on the tag at their root. -/
  tagDispatch : Bool := true
  /-- How many alternatives make a dispatch worth while. -/
  threshold : Nat := 4
deriving DecidableEq, Repr

/-- A dispatch over a single arm is never worth while. -/
def Options.wantsDispatch (options : Options) (arms : Nat) : Bool :=
  options.tagDispatch && arms ≥ max options.threshold 2

end OrPattern
