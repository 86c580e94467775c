/-!
# Built-in functions

The functions that every program can call, with their names and the texts that describe them.
What they do is in `Monkey.Builtin.Call`.
-/

namespace Monkey

/-- The built-in functions. -/
inductive Builtin where
  | len | exit | type | help | puts | gets | int | float | str | abs | first | last | rest | push
  | zip | sumarr
  deriving DecidableEq, Repr, Inhabited

namespace Builtin

/-- The name under which a program calls a built-in function. -/
def name : Builtin → String
  | len => "len"
  | exit => "exit"
  | type => "type"
  | help => "help"
  | puts => "puts"
  | gets => "gets"
  | int => "int"
  | float => "float"
  | str => "str"
  | abs => "abs"
  | first => "first"
  | last => "last"
  | rest => "rest"
  | push => "push"
  | zip => "zip"
  | sumarr => "sumarr"

/-- Every built-in function, in the order in which they are listed. -/
def all : List Builtin :=
  [len, exit, type, help, puts, gets, int, float, str, abs, first, last, rest, push, zip, sumarr]

theorem mem_all (b : Builtin) : b ∈ all := by
  cases b <;> decide

/-- The built-in function with the given name. -/
def ofName? (s : String) : Option Builtin :=
  all.find? (·.name = s)

/-- The description of a built-in function. -/
def description : Builtin → String
  | len => "Gives the length of a string, array or number of keys of a dictionary."
  | exit => "Exits from the interpreter."
  | type => "Returns the type of an object."
  | help => "Returns the help string of a builtin function.\n" ++
      "If no arguments are provided the list of inbuilt functions is provided."
  | puts => "Prints the given arguments to stdout."
  | gets => "Accepts inputs from the user in the form of a string.\n" ++
      "You can provide an optional string that will serve as a\nprompt for the user."
  | int => "Converts a string or a float to an integer."
  | float => "Convert an int or a string to a float."
  | str => "Converts any monkey object to its string representation."
  | abs => "Gives the absolute value of an integer or float."
  | first => "Returns the first element of an array."
  | last => "Returns the last element of an array."
  | rest => "Returns a new array with all the elements of the argument array,\nexcept the first."
  | push => "Creates a new array with the element provided by the user appended to it.\n" ++
      "The first argument should be the array, and the second should be the element."
  | zip => "Creates an array from the elements of the arrays provided as arguments.\n\n" ++
      "The length of the resulting array will be equal to the length of the smallest\n" ++
      "array. This is similar to the zip function found in Python."
  | sumarr => "Returns the sum of the integer and float elements in an array.\n" ++
      "If there is any other element except that of the type INTEGER\n" ++
      "or FLOAT an error will be returned instead."

end Builtin

end Monkey
