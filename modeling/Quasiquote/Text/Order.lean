namespace Quasiquote.Text

/-- Sort texts by the code points of their characters, a text before its continuations. -/
def sorted (texts : List String) : List String := texts.mergeSort fun a b => !(b < a : Bool)

end Quasiquote.Text
