/-!
# Codes of type names

Builtin types and a few of the standard library have codes of one or two letters. Every other
name is written after its length.
-/

namespace LinkerNames

/-- The names that have codes, each with its code. -/
def typeCodes : List (String × String) :=
  [("std::string", "Ss"),
    ("schar", "a"),
    ("bool", "b"),
    ("char", "c"),
    ("double", "d"),
    ("long double", "e"),
    ("float", "f"),
    ("__float128", "g"),
    ("unsigned char", "h"),
    ("int", "i"),
    ("unsigned int", "j"),
    ("long", "l"),
    ("unsigned long", "m"),
    ("__int128", "n"),
    ("unsigned __int128", "o"),
    ("short", "s"),
    ("std::allocator", "Sa"),
    ("std::basic_string", "Sb"),
    ("std::basic_iostream<char, std::char_traits<char>>", "Sd"),
    ("std::basic_istream<char, std::char_traits<char>>", "Si"),
    ("std::basic_ostream<char, std::char_traits<char>>", "So"),
    ("std::basic_string<char, std::char_traits<char>, std::allocator<char>>", "Ss"),
    ("std", "St"),
    ("unsigned short", "t"),
    ("void", "v"),
    ("volatile", "V"),
    ("wchar_t", "w"),
    ("long long", "x"),
    ("unsigned long long", "y"),
    ("ellipsis", "z"),
    ("signed char", "a"),
    ("signed short", "s"),
    ("short int", "s"),
    ("signed short int", "s"),
    ("unsigned short int", "t"),
    ("signed", "i"),
    ("signed int", "i"),
    ("unsigned", "j"),
    ("long int", "l"),
    ("signed long", "l"),
    ("signed long int", "l"),
    ("unsigned long int", "m"),
    ("long long int", "x"),
    ("signed long long", "x"),
    ("signed long long int", "x"),
    ("unsigned long long int", "y"),
    ("std::iostream", "Sd"),
    ("std::istream", "Si"),
    ("std::ostream", "So")]

/-- The code of a name, if it has one. -/
def typeCode? (name : String) : Option String :=
  typeCodes.lookup name

/-- A name after its length. -/
def lengthPrefixed (name : String) : String :=
  toString name.length ++ name

/-- How a type name is written in a linker name. -/
def encodeType (name : String) : String :=
  (typeCode? name).getD (lengthPrefixed name)

end LinkerNames
